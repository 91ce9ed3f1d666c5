import PeerSubstrate.Proofs.Concurrency.Run
import PeerSubstrate.Proofs.Executor.Asides
import PeerSubstrate.Proofs.Executor.Custody
import PeerSubstrate.Proofs.Executor.PoolThreads

/-!
# The queues of the pool

At most one thread owns the funnel, at most one looks for work if there is one scheduled thread, and the scheduled queue is
in the order in which its entries are due (`Regular`).
-/

namespace PeerSubstrate.Executor.Pool
open PeerSubstrate.Time PeerSubstrate.Concurrency

/-- The thread owns the funnel until it has done this. -/
def Instruction.owns : Instruction → Bool
  | .funnel .receive | .funnel .release => true
  | _ => false

/-- The thread is a scheduled worker that looks for work. -/
def Instruction.looks : Instruction → Bool
  | .take => true
  | _ => false

open Instruction (owns looks)

section Perform

variable {world : World} {me : Nat} {s : State} {own : Own} {instruction : Instruction}
  {rest : List Instruction} {effect : Effect State Own Instruction Event}

/-- Points at the funnel or at the scheduled queue that are not on the way of one task. -/
def Points (p : Instruction → Bool) : Prop :=
  ∀ i, p i = true → (∃ step, i = .funnel step ∧ i.task? = none) ∨ i = .take

private theorem points_owns : Points owns := by
  intro i isPoint
  cases i with
  | funnel step =>
    refine .inl ⟨step, rfl, ?_⟩
    cases step <;> first | rfl | cases isPoint
  | _ => cases isPoint

private theorem points_looks : Points looks := by
  intro i isPoint
  cases i with
  | take => exact .inr rfl
  | _ => cases isPoint

private theorem Aside.countP_le (aside : Aside s instruction rest effect) {p : Instruction → Bool} (points : Points p) :
    effect.thread.todo.countP p ≤ rest.countP p := by
  obtain ⟨new, behind, isTodo, suffix, goesOn⟩ := aside.goesOn
  have none : new.countP p = 0 := by
    refine List.countP_eq_zero.mpr fun i member isPoint => ?_
    rcases goesOn with light | ⟨j, rfl, submits, -⟩
    · have steps := (light i member).1
      rcases points i isPoint with ⟨step, rfl, -⟩ | rfl <;> cases steps
    · cases List.mem_singleton.mp member
      rcases submits with ⟨script, rfl⟩ | ⟨deadline, work, funnelled, rfl, -⟩ <;>
        rcases points _ isPoint with ⟨step, same, -⟩ | same <;> cases same
  rw [isTodo, List.countP_append, none, Nat.zero_add]
  exact suffix.sublist.countP_le

/-- In the immediate pool nobody comes to such a point. -/
theorem countP_immediate {step : Immediate.Step Job} {p : Instruction → Bool} (points : Points p)
    (performed : perform world me s own (.immediate step) rest = some effect) : effect.shared.funnel = s.funnel ∧
    effect.thread.todo.countP p + (effect.started.flatMap Thread.todo).countP p ≤ rest.countP p := by
  obtain ⟨⟨immediate, next⟩, -, rfl⟩ := Option.map_eq_some_iff.mp performed
  have none : (next.flatMap Instruction.ofImmediate).countP p = 0 := by
    refine List.countP_eq_zero.mpr fun i member isPoint => ?_
    obtain ⟨one, -, here⟩ := List.mem_flatMap.mp member
    rcases points i isPoint with ⟨step, rfl, -⟩ | rfl <;> cases one <;> simp [Instruction.ofImmediate] at here
  refine ⟨rfl, ?_⟩
  rw [List.countP_append, none, Nat.zero_add]
  refine Nat.le_of_eq (Nat.add_eq_left.mpr (List.countP_eq_zero.mpr fun i member isPoint => ?_))
  obtain ⟨thread, isThread, here⟩ := List.mem_flatMap.mp member
  obtain ⟨one, -, starts⟩ := List.mem_filterMap.mp isThread
  cases one <;> simp at starts
  subst starts
  cases List.mem_singleton.mp here
  rcases points _ isPoint with ⟨step, same, -⟩ | same <;> cases same

/-- Only a step of the funnel and a worker's look for work lead to such a point. -/
theorem countP_of_perform {p : Instruction → Bool} (points : Points p) (noFunnel : ∀ step, instruction ≠ .funnel step)
    (noTake : instruction ≠ .take) (performed : perform world me s own instruction rest = some effect) :
    effect.shared.funnel = s.funnel ∧
    effect.thread.todo.countP p + (effect.started.flatMap Thread.todo).countP p ≤ rest.countP p := by
  have others : ∀ todo : List Instruction, (∀ i ∈ todo, i ≠ .take ∧ ∀ step, i = .funnel step → i.task? ≠ none) →
      todo.countP p = 0 := by
    intro todo apart
    refine List.countP_eq_zero.mpr fun i member isPoint => ?_
    rcases points i isPoint with ⟨step, isFunnel, free⟩ | isTake
    · exact (apart i member).2 step isFunnel free
    · exact (apart i member).1 isTake
  by_cases outside : instruction.pooled = false
  · have aside := aside_of_perform outside performed
    rw [aside.started]
    exact ⟨aside.funnel, aside.countP_le points⟩
  cases instruction with
  | immediate => exact countP_immediate points performed
  | funnel step => exact absurd rfl (noFunnel step)
  | take => exact absurd rfl noTake
  | draw deadline work funnelled =>
    cases performed
    refine ⟨rfl, ?_⟩
    rw [List.countP_append, others _ (by cases funnelled <;> simp [Instruction.task?])]
    exact Nat.le_of_eq (Nat.zero_add _)
  | push entry =>
    simp only [perform] at performed
    split at performed
    · cases performed
      exact ⟨rfl, Nat.le_refl _⟩
    · cases performed
      refine ⟨rfl, ?_⟩
      rw [List.countP_append, others _ (by simp)]
      exact Nat.le_of_eq (Nat.zero_add _)
  | closeImmediate =>
    cases performed
    exact ⟨rfl, Nat.le_refl _⟩
  | closeScheduled =>
    cases performed
    refine ⟨rfl, ?_⟩
    rw [List.countP_append, others]
    · exact Nat.le_of_eq (Nat.zero_add _)
    · intro i member
      simp only [List.mem_append, List.mem_map, List.mem_singleton] at member
      rcases member with ⟨entry, -, rfl⟩ | rfl <;> simp
  | _ => exact absurd rfl outside

/-- Whoever comes to own the funnel takes it, and whoever no longer does has set it free. -/
theorem owners_of_perform (performed : perform world me s own instruction rest = some effect) :
    effect.thread.todo.countP owns + (effect.started.flatMap Thread.todo).countP owns + s.funnel.active.toNat ≤
      (instruction :: rest).countP owns + effect.shared.funnel.active.toNat := by
  by_cases isFunnel : ∃ step, instruction = .funnel step
  · obtain ⟨step, rfl⟩ := isFunnel
    cases step with
    | enqueue =>
      cases performed
      simp [owns]
    | release =>
      have bit := Bool.toNat_le s.funnel.active
      cases performed
      simp [Instruction.ofFunnel, List.countP_cons, owns]
      omega
    | receive | inspect =>
      simp only [perform, Serialized.Shared.perform] at performed
      split at performed <;> cases performed <;> simp [Instruction.ofFunnel, List.countP_cons, owns]
    | acquire | retry | regain =>
      simp only [perform, Serialized.Shared.perform] at performed
      split at performed
      · cases performed
        simp [Instruction.ofFunnel, owns]
      · next free =>
        cases performed
        simp [Instruction.ofFunnel, List.countP_cons, owns, free]
  by_cases isTake : instruction = .take
  · subst isTake
    simp only [perform, performTake] at performed
    split at performed
    · cases performed
      simp [owns]
    · cases performed
    · split at performed <;> cases performed <;> simp [owns]
  obtain ⟨same, fewer⟩ := countP_of_perform points_owns (fun step isStep => isFunnel ⟨step, isStep⟩) isTake performed
  rw [same, List.countP_cons]
  omega

theorem lookers_of_perform (performed : perform world me s own instruction rest = some effect) :
    effect.thread.todo.countP looks + (effect.started.flatMap Thread.todo).countP looks ≤
      (instruction :: rest).countP looks := by
  by_cases isFunnel : ∃ step, instruction = .funnel step
  · obtain ⟨step, rfl⟩ := isFunnel
    have none : ∀ next : List (Serialized.Next Entry), (next.map Instruction.ofFunnel).countP looks = 0 := by
      refine fun next => List.countP_eq_zero.mpr fun i member isPoint => ?_
      obtain ⟨next, -, rfl⟩ := List.mem_map.mp member
      cases next <;> cases isPoint
    cases performed
    rw [List.countP_append, none, List.countP_cons]
    simp
  by_cases isTake : instruction = .take
  · subst isTake
    simp only [perform, performTake] at performed
    split at performed
    · cases performed
      simp [List.countP_cons, looks]
    · cases performed
    · split at performed <;> cases performed <;> simp [List.countP_cons, looks]
  have fewer := (countP_of_perform points_looks (fun step isStep => isFunnel ⟨step, isStep⟩) isTake performed).2
  rw [List.countP_cons]
  omega

/-- The scheduled queue is in the order in which its entries are due. -/
def Sorted (queue : List Entry) : Prop := queue.Pairwise fun first second => second.before first = false

private theorem before_trans {one two three : Entry} (before : one.before two = true) (least : three.before two = false) :
    three.before one = false := by
  simp only [Scheduled.Entry.before, Bool.or_eq_true, Bool.and_eq_true, decide_eq_true_eq, beq_iff_eq, Bool.or_eq_false_iff,
    Bool.and_eq_false_iff, decide_eq_false_iff_not, beq_eq_false_iff_ne] at before least ⊢
  grind

private theorem Sorted.place {queue : List Entry} (sorted : Sorted queue) (entry : Entry) :
    Sorted (Scheduled.Shared.place entry queue) := by
  induction queue with
  | nil => exact List.pairwise_singleton _ _
  | cons first queue ih =>
    obtain ⟨least, sorted⟩ := List.pairwise_cons.mp sorted
    rw [Scheduled.Shared.place]
    split
    · next before =>
      refine List.pairwise_cons.mpr ⟨fun other member => before_trans before ?_, List.pairwise_cons.mpr ⟨least, sorted⟩⟩
      rcases List.mem_cons.mp member with rfl | member
      · simp [Scheduled.Entry.before]
      · exact least other member
    · next after =>
      refine List.pairwise_cons.mpr ⟨fun other member => ?_, ih sorted⟩
      rcases List.mem_cons.mp ((perm_place entry queue).subset member) with rfl | member
      · exact Bool.eq_false_iff.mpr after
      · exact least other member

/-- The scheduled queue stays in order, numbers are given out once, and a shutdown is for good. -/
structure Onward (p p' : Scheduled.Shared Work) : Prop where
  sorted : Sorted p.queue → Sorted p'.queue
  numbers : p.nextSeq ≤ p'.nextSeq
  stopped : p.stopped = true → p'.stopped = true

private theorem Onward.of_eq {p p' : Scheduled.Shared Work} (same : p' = p) : Onward p p' :=
  same ▸ ⟨id, Nat.le_refl _, id⟩

private theorem Onward.push {p p' : Scheduled.Shared Work} {entry : Entry} (pushed : p.push? entry = some p') :
    Onward p p' := by
  unfold Scheduled.Shared.push? at pushed
  split at pushed <;> cases pushed
  exact ⟨fun sorted => sorted.place entry, Nat.le_refl _, id⟩

private theorem Onward.take {p p' : Scheduled.Shared Work} {now : Instant} {entry : Entry}
    (taken : p.take now = .due entry p') :
    Onward p p' := by
  unfold Scheduled.Shared.take at taken
  split at taken
  · cases taken
  · split at taken
    · cases taken
    · next isQueue =>
      split at taken <;> cases taken
      exact ⟨fun sorted => (List.pairwise_cons.mp (isQueue ▸ sorted)).2, Nat.le_refl _, id⟩

theorem onward_of_perform (performed : perform world me s own instruction rest = some effect) :
    Onward s.scheduled effect.shared.scheduled := by
  by_cases outside : instruction.pooled = false
  · exact .of_eq (aside_of_perform outside performed).scheduled
  cases instruction with
  | immediate step =>
    obtain ⟨_, -, rfl⟩ := Option.map_eq_some_iff.mp performed
    exact .of_eq rfl
  | funnel | closeImmediate =>
    cases performed
    exact .of_eq rfl
  | draw =>
    cases performed
    exact ⟨id, Nat.le_succ _, id⟩
  | push entry =>
    simp only [perform] at performed
    split at performed
    · next pushed =>
      cases performed
      exact .push pushed
    · cases performed
      exact .of_eq rfl
  | take =>
    simp only [perform, performTake] at performed
    split at performed
    · cases performed
      exact .of_eq rfl
    · cases performed
    · next taken => split at performed <;> cases performed <;> exact .take taken
  | closeScheduled =>
    cases performed
    exact ⟨fun _ => List.Pairwise.nil, Nat.le_refl _, fun _ => rfl⟩
  | _ => exact absurd rfl outside

/-- The funnel is a queue. -/
theorem funnel_of_perform (performed : perform world me s own instruction rest = some effect) :
    effect.shared.funnel.queue = s.funnel.queue ∨ (∃ entry, s.funnel.queue = entry :: effect.shared.funnel.queue) ∨
    ∃ entry, instruction = .funnel (.enqueue entry) ∧ effect.shared.funnel.queue = s.funnel.queue ++ [entry] := by
  by_cases isFunnel : ∃ step, instruction = .funnel step
  · obtain ⟨step, rfl⟩ := isFunnel
    cases step with
    | enqueue entry =>
      cases performed
      exact .inr (.inr ⟨entry, rfl, rfl⟩)
    | release =>
      cases performed
      exact .inl rfl
    | receive =>
      simp only [perform, Serialized.Shared.perform] at performed
      split at performed
      · cases performed
        exact .inl rfl
      · next entry queue isQueue =>
        cases performed
        exact .inr (.inl ⟨entry, isQueue⟩)
    | acquire | retry | inspect | regain =>
      simp only [perform, Serialized.Shared.perform] at performed
      split at performed <;> cases performed <;> exact .inl rfl
  by_cases isTake : instruction = .take
  · subst isTake
    simp only [perform, performTake] at performed
    split at performed
    · cases performed
      exact .inl rfl
    · cases performed
    · split at performed <;> cases performed <;> exact .inl rfl
  · have same := (countP_of_perform points_looks (fun step isStep => isFunnel ⟨step, isStep⟩) isTake performed).1
    exact .inl (congrArg _ same)

/-- In the queues no task begins, and none is cancelled or given up. -/
theorem quiet_of_pooled (inside : instruction.pooled = true)
    (performed : perform world me s own instruction rest = some effect) :
    effect.shared.records = s.records ∧ ∀ task, .began task ∉ effect.events := by
  cases instruction with
  | immediate step =>
    obtain ⟨_, -, rfl⟩ := Option.map_eq_some_iff.mp performed
    refine ⟨rfl, fun task member => ?_⟩
    obtain ⟨one, -, seen⟩ := List.mem_filterMap.mp member
    cases step <;> split at seen <;> cases seen
  | funnel | closeImmediate | closeScheduled | draw =>
    cases performed
    exact ⟨rfl, fun _ => List.not_mem_nil⟩
  | push entry =>
    simp only [perform] at performed
    split at performed <;> cases performed <;> exact ⟨rfl, fun _ => List.not_mem_nil⟩
  | take =>
    simp only [perform, performTake] at performed
    split at performed
    · cases performed
      exact ⟨rfl, fun _ => List.not_mem_nil⟩
    · cases performed
    · split at performed <;> cases performed <;> exact ⟨rfl, by simp⟩
  | _ => cases inside

theorem began_of_run {job : Job} (pending : Pending s.records job.task)
    (performed : perform world me s own (.run job) rest = some effect) : .began job.task ∈ effect.events := by
  obtain ⟨cell, found, isPending⟩ := pending
  simp only [perform, performRun, found, TaskCell.begin?, isPending] at performed
  cases performed
  exact List.mem_singleton_self _

end Perform

/-! ## Runs -/

section Run

variable {config : Config} {calls : List (List Call)} {s t : System State Own Instruction} {seen : List Event}

/-- One thread at a time is at such a point. -/
structure Regular (s : System State Own Instruction) : Prop where
  owner : s.todo.countP owns ≤ s.shared.funnel.active.toNat
  worker : s.todo.countP looks ≤ 1
  sorted : Sorted s.shared.scheduled.queue

theorem Regular.run (regular : Regular t) (run : machine.Run t s seen) : Regular s := by
  refine run.keeps regular fun {before own instruction rest after effect world shared} regular performed => ?_
  obtain ⟨owner, worker, sorted⟩ := regular
  have owners := owners_of_perform performed
  have lookers := lookers_of_perform performed
  simp only [System.todo, List.flatMap_append, List.flatMap_cons, List.countP_append] at owner worker
  constructor
  case sorted => exact (onward_of_perform performed).sorted sorted
  all_goals
    simp only [System.todo, List.flatMap_append, List.flatMap_cons, List.countP_append]
    omega

/-- Where one thread is and at most one may be, no other one is. -/
theorem alone_of_countP {shared : State} {before after : List (Thread Own Instruction)} {own : Own} {instruction : Instruction}
    {rest : List Instruction} {p : Instruction → Bool}
    (few : (System.todo ⟨shared, before ++ ⟨own, instruction :: rest⟩ :: after⟩).countP p ≤ 1) (isPoint : p instruction = true)
    {thread : Thread Own Instruction} (member : thread ∈ before ++ after) {i : Instruction} (within : i ∈ thread.todo) :
    p i = false := by
  by_contra other
  have there : 0 < ((before ++ after).flatMap Thread.todo).countP p :=
    List.countP_pos_iff.mpr ⟨i, List.mem_flatMap.mpr ⟨thread, member, within⟩, by simpa using other⟩
  simp only [System.todo, List.flatMap_append, List.flatMap_cons, List.countP_append, List.countP_cons, isPoint, if_true]
    at few there
  omega

/-- There is one worker that looks for work, and the clients begin with calls. -/
theorem countP_withClients (single : config.scheduled ≤ 1) (calls : List (List Call)) {p : Instruction → Bool}
    (points : Points p) (going : p .exit = false) :
    (withClients config calls).todo.countP p = [Instruction.take].countP p := by
  let client (calls : List Call) : Thread Own Instruction := ⟨{ name := "" }, calls.flatMap Call.todo⟩
  have clients : ((calls.map client).flatMap Thread.todo).countP p = 0 := by
    refine List.countP_eq_zero.mpr fun i member isPoint => ?_
    obtain ⟨thread, isThread, here⟩ := List.mem_flatMap.mp member
    obtain ⟨ofClient, -, rfl⟩ := List.mem_map.mp isThread
    obtain ⟨call, -, here⟩ := List.mem_flatMap.mp here
    rcases points i isPoint with ⟨step, rfl, -⟩ | rfl <;> cases call <;> simp [Call.todo] at here
  have one : Nat.max config.scheduled 1 = 1 := Nat.max_eq_right single
  unfold System.todo withClients initial
  rw [List.flatMap_append, List.countP_append, clients, one]
  simp [List.countP_cons, going]

theorem Regular.start (single : config.scheduled ≤ 1) (calls : List (List Call)) : Regular (withClients config calls) := by
  constructor
  case owner => exact Nat.le_of_eq (countP_withClients single calls points_owns rfl)
  case worker => exact Nat.le_of_eq (countP_withClients single calls points_looks rfl)
  case sorted => exact List.Pairwise.nil

end Run

end PeerSubstrate.Executor.Pool
