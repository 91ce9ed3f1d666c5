import PeerSubstrate.Proofs.Executor.Asides
import PeerSubstrate.Proofs.Executor.Custody

/-!
# The way into the scheduled pool

A task with a deadline goes through the hands of threads and through two queues, the one of the funnel and the scheduled
one, until a worker runs it. What a step does to a task on this way is said once (`Advances`), for a task that is in one place
only (`Carries`).
-/

namespace PeerSubstrate.Executor.Pool
open PeerSubstrate.Time PeerSubstrate.Concurrency
open Instruction (custody? immediate?)

/-- Where a task is: next for a thread, or in a queue. -/
inductive Cargo where
  | hand (i : Instruction)
  | funnel (entry : Entry)
  | scheduled (entry : Entry)
  | bound (job : Job)

/-- The entry is for the task. -/
def isOf (task : Nat) (entry : Entry) : Bool := entry.task.custody.2 == task

/-- The task in the hands of a thread. -/
def inHand (task : Nat) (todo : List Instruction) : Option Cargo :=
  todo.head?.bind fun i => if i.task? = some task then some (.hand i) else none

/-- The task in queues like these. -/
def cargoOf (task : Nat) (funnel scheduled : List Entry) (jobs : List Job) : List Cargo :=
  (funnel.filter (isOf task)).map .funnel ++ ((scheduled.filter (isOf task)).map .scheduled ++
    (jobs.filter fun job => job.task == task).map .bound)

def State.cargo (task : Nat) (s : State) : List Cargo :=
  cargoOf task s.funnel.queue s.scheduled.queue s.immediate.queue

/-- The task in the hands of one thread, and in the queues of the pool. -/
def held (task : Nat) (todo : List Instruction) (s : State) : List Cargo := (inHand task todo).toList ++ s.cargo task

/-- A one-off task with this deadline may be there. -/
def Cargo.Legal (deadline : Instant) : Cargo → Prop
  | .hand (.draw instant (.once _) funnelled) => instant = deadline ∧ funnelled = true
  | .hand (.funnel (.acquire entry)) | .hand (.funnel (.enqueue entry)) | .hand (.push entry) | .funnel entry
  | .scheduled entry => entry.deadline = deadline ∧ ∃ job, entry.task = .once job
  | .hand (.run _) => True
  | _ => False

/-- How far a task has come: 3 is the queue of the funnel, 5 the scheduled queue, and at 6 a worker is about to run it. -/
def Cargo.stage : Cargo → Nat
  | .hand (.funnel (.acquire _)) => 1
  | .hand (.funnel (.enqueue _)) => 2
  | .funnel _ => 3
  | .hand (.push _) => 4
  | .scheduled _ => 5
  | .hand (.run _) => 6
  | _ => 0

/-- The entry of the task, when it has a number and does not yet run. -/
def Cargo.entry? : Cargo → Option Entry
  | .hand (.funnel (.acquire entry)) | .hand (.funnel (.enqueue entry)) | .hand (.push entry) | .funnel entry
  | .scheduled entry => some entry
  | _ => none

/-- What the thread is going to do when it has done this with a task of the funnel, or of the scheduled queue. -/
def Instruction.Follows : Instruction → List Instruction → Prop
  | .push _, rest => rest.head? = some (.funnel .receive)
  | .run _, rest => rest.head? = some .take
  | _, _ => True

/-- With this instruction the task goes from one place to the next. -/
inductive Advances (s : State) : Instruction → Cargo → Cargo → Prop
  | draw {deadline job} : Advances s (.draw deadline (.once job) true) (.hand (.draw deadline (.once job) true))
      (.hand (.funnel (.acquire ⟨deadline, s.scheduled.nextSeq, .once job⟩)))
  | busy {entry} : s.funnel.active = true →
      Advances s (.funnel (.acquire entry)) (.hand (.funnel (.acquire entry))) (.hand (.funnel (.enqueue entry)))
  | free {entry} : s.funnel.active = false →
      Advances s (.funnel (.acquire entry)) (.hand (.funnel (.acquire entry))) (.hand (.push entry))
  | enqueue {entry} : Advances s (.funnel (.enqueue entry)) (.hand (.funnel (.enqueue entry))) (.funnel entry)
  | receive {entry queue} : s.funnel.queue = entry :: queue →
      Advances s (.funnel .receive) (.funnel entry) (.hand (.push entry))
  | push {entry} : Advances s (.push entry) (.hand (.push entry)) (.scheduled entry)
  | take {entry job queue} : s.scheduled.queue = entry :: queue → entry.task = .once job →
      Advances s .take (.scheduled entry) (.hand (.run job))

section Advances

variable {deadline : Instant} {s : State} {instruction : Instruction} {c c' : Cargo}

theorem Advances.legal (advances : Advances s instruction c c') (legal : c.Legal deadline) :
    c'.Legal deadline := by
  cases advances with
  | draw =>
    obtain ⟨rfl, -⟩ := legal
    exact ⟨rfl, _, rfl⟩
  | take => trivial
  | _ => exact legal

theorem Advances.stage_lt (advances : Advances s instruction c c') : c.stage < c'.stage := by
  cases advances <;> simp [Cargo.stage]

theorem Advances.pooled (advances : Advances s instruction c c') : instruction.pooled = true := by
  cases advances <;> rfl

/-- A task gets a number once, -/
theorem Advances.numbered (advances : Advances s instruction c c') :
    ∀ entry ∈ c'.entry?, entry ∈ c.entry? ∨ entry.seq = s.scheduled.nextSeq := by
  cases advances with
  | draw =>
    rintro _ ⟨⟩
    exact .inr rfl
  | take => exact nofun
  | _ => exact fun entry => .inl

/-- and keeps it. -/
theorem Advances.entry (advances : Advances s instruction c c') (entered : 0 < c.stage) :
    ∀ entry ∈ c'.entry?, entry ∈ c.entry? := by
  cases advances with
  | draw => cases entered
  | take => exact nofun
  | _ => exact fun entry => id

end Advances

section Held

variable {task : Nat} {i : Instruction} {todo rest : List Instruction} {s : State}

theorem inHand_of_free (free : ∀ i ∈ todo, i.task? ≠ some task) : inHand task todo = none := by
  cases todo with
  | nil => rfl
  | cons i rest => exact if_neg (free i List.mem_cons_self)

theorem inHand_of_eq (mine : i.task? = some task) : inHand task (i :: rest) = some (.hand i) := if_pos mine

private theorem held_of_free (free : ∀ i ∈ todo, i.task? ≠ some task) : held task todo s = s.cargo task := by
  rw [held, inHand_of_free free]
  rfl

theorem held_of_ne (other : i.task? ≠ some task) : held task (i :: rest) s = s.cargo task := by
  have none : inHand task (i :: rest) = none := if_neg other
  rw [held, none]
  rfl

theorem held_of_eq (mine : i.task? = some task) : held task (i :: rest) s = .hand i :: s.cargo task := by
  rw [held, inHand_of_eq mine]
  rfl

private theorem cargoOf_funnel {task : Nat} {entry : Entry} {queue queue' scheduled : List Entry} {jobs : List Job}
    (same : queue'.Perm (entry :: queue)) : (cargoOf task queue' scheduled jobs).Perm
      ((if isOf task entry then [.funnel entry] else []) ++ cargoOf task queue scheduled jobs) := by
  have perm := ((same.filter (isOf task)).map Cargo.funnel).append_right
    ((scheduled.filter (isOf task)).map .scheduled ++ (jobs.filter fun job => job.task == task).map .bound)
  rw [List.filter_cons] at perm
  split at perm
  · next mine =>
    rw [if_pos mine]
    exact perm
  · next other =>
    rw [if_neg other]
    exact perm

private theorem cargoOf_scheduled {task : Nat} {entry : Entry} {funnel queue queue' : List Entry} {jobs : List Job}
    (same : queue'.Perm (entry :: queue)) : (cargoOf task funnel queue' jobs).Perm
      ((if isOf task entry then [.scheduled entry] else []) ++ cargoOf task funnel queue jobs) := by
  have perm := (((same.filter (isOf task)).map Cargo.scheduled).append_right
    ((jobs.filter fun job => job.task == task).map .bound)).append_left ((funnel.filter (isOf task)).map .funnel)
  rw [List.filter_cons] at perm
  split at perm
  · next mine =>
    rw [if_pos mine]
    exact perm.trans List.perm_middle
  · next other =>
    rw [if_neg other]
    exact perm

end Held

/-! ## One step -/

section Perform

variable {task : Nat} {deadline : Instant} {world : World} {me : Nat} {s : State} {own : Own} {instruction : Instruction}
  {rest : List Instruction} {effect : Effect State Own Instruction Event}

/-- What a step does to a task that is in one place. -/
structure Carries (task : Nat) (s : State) (instruction : Instruction) (rest : List Instruction)
    (effect : Effect State Own Instruction Event) : Prop where
  tails : ∀ i ∈ effect.thread.todo.tail, i.task? ≠ some task
  starts : ∀ thread ∈ effect.started, ∀ i ∈ thread.todo, i.task? ≠ some task
  follows : ∀ i later, effect.thread.todo = i :: later → i.task? = some task → i.Follows later
  goesOn : instruction.task? ≠ some task ∧
      (held task effect.thread.todo effect.shared).Perm (held task (instruction :: rest) s) ∨
    ∃ c c', (held task (instruction :: rest) s).Perm [c] ∧ (held task effect.thread.todo effect.shared).Perm [c'] ∧
      Advances s instruction c c'

/-- The thread has nothing to do with the task, and the queues keep it. -/
theorem Carries.idle (other : instruction.task? ≠ some task) (free : ∀ i ∈ effect.thread.todo, i.task? ≠ some task)
    (starts : ∀ thread ∈ effect.started, ∀ i ∈ thread.todo, i.task? ≠ some task)
    (same : (effect.shared.cargo task).Perm (s.cargo task)) : Carries task s instruction rest effect := by
  refine ⟨fun i member => free i (List.mem_of_mem_tail member), starts, ?_, .inl ⟨other, ?_⟩⟩
  · intro i later isTodo mine
    exact absurd mine (free i (isTodo ▸ List.mem_cons_self))
  · rw [held_of_free free, held_of_ne other]
    exact same

/-- The task is the thread's next thing afterwards. -/
theorem Carries.take {c : Cargo} {i : Instruction} {later : List Instruction} (isTodo : effect.thread.todo = i :: later)
    (mine : i.task? = some task) (free : ∀ i ∈ later, i.task? ≠ some task) (started : effect.started = [])
    (follows : i.Follows later) (none : effect.shared.cargo task = []) (from_ : (held task (instruction :: rest) s).Perm [c])
    (moves : Advances s instruction c (.hand i)) : Carries task s instruction rest effect := by
  refine ⟨?_, by simp [started], ?_, .inr ⟨c, .hand i, from_, ?_, moves⟩⟩
  · rw [isTodo]
    exact free
  · intro j others same _
    rw [isTodo] at same
    cases same
    exact follows
  · rw [isTodo, held_of_eq mine, none]

/-- The thread puts the task into a queue. -/
theorem Carries.put {c c' : Cargo} (free : ∀ i ∈ effect.thread.todo, i.task? ≠ some task) (started : effect.started = [])
    (from_ : (held task (instruction :: rest) s).Perm [c]) (into : (effect.shared.cargo task).Perm [c'])
    (moves : Advances s instruction c c') : Carries task s instruction rest effect := by
  refine ⟨fun i member => free i (List.mem_of_mem_tail member), by simp [started], ?_, .inr ⟨c, c', from_, ?_, moves⟩⟩
  · intro i later isTodo mine
    exact absurd mine (free i (isTodo ▸ List.mem_cons_self))
  · rw [held_of_free free]
    exact into

private theorem Aside.carries (aside : Aside s instruction rest effect) (free : ∀ i ∈ rest, i.task? ≠ some task)
    (old : task ≠ s.records.length ∨ effect.shared.records.length ≤ s.records.length)
    (other : instruction.task? ≠ some task) : Carries task s instruction rest effect := by
  obtain ⟨immediate, funnel, scheduled, started, -, -, -, new, behind, isTodo, suffix, goesOn⟩ := aside
  refine .idle other ?_ (by simp [started]) ?_
  · intro i member
    rw [isTodo] at member
    rcases List.mem_append.mp member with here | later
    · rcases goesOn with light | ⟨j, rfl, submits, more⟩
      · rcases (light i here).2 with none | same
        · simp [none]
        · rw [same]
          exact other
      · cases List.mem_singleton.mp here
        have fresh : s.records.length ≠ task := fun same => old.elim (absurd same.symm) fun less => by omega
        rcases submits with ⟨script, rfl⟩ | ⟨deadline, work, funnelled, rfl, isNew⟩
        · exact fun same => fresh (Option.some.inj same)
        · exact fun same => fresh (isNew.symm.trans (Option.some.inj same))
    · exact free i (suffix.subset later)
  · rw [State.cargo, State.cargo, immediate, funnel, scheduled]

/-- A thread that has the task in hand is the only place where it is. -/
theorem cargo_eq_nil (mine : instruction.task? = some task) (one : (held task (instruction :: rest) s).length ≤ 1) :
    s.cargo task = [] := by
  rw [held_of_eq mine] at one
  exact List.length_eq_zero_iff.mp (by simpa using one)

private theorem held_singleton_of_hand (mine : instruction.task? = some task)
    (one : (held task (instruction :: rest) s).length ≤ 1) : held task (instruction :: rest) s = [.hand instruction] := by
  rw [held_of_eq mine, cargo_eq_nil mine one]

private theorem carries_draw {instant : Instant} {work : Work} {funnelled : Bool} (free : ∀ i ∈ rest, i.task? ≠ some task)
    (legal : ∀ c ∈ held task (.draw instant work funnelled :: rest) s, c.Legal deadline)
    (one : (held task (.draw instant work funnelled :: rest) s).length ≤ 1)
    (performed : perform world me s own (.draw instant work funnelled) rest = some effect) :
    Carries task s (.draw instant work funnelled) rest effect := by
  cases performed
  by_cases mine : (Instruction.draw instant work funnelled).task? = some task
  · have isLegal := legal (.hand (.draw instant work funnelled)) (held_of_eq mine ▸ List.mem_cons_self)
    have from_ := held_singleton_of_hand mine one
    cases work with
    | periodic => exact isLegal.elim
    | once job =>
      obtain ⟨rfl, rfl⟩ := isLegal
      exact .take rfl mine free rfl trivial (cargo_eq_nil mine one) (.of_eq from_) .draw
  · refine .idle mine (fun i member => ?_) (by simp) (.refl _)
    rcases List.mem_cons.mp member with rfl | later
    · cases funnelled <;> exact mine
    · exact free i later

private theorem carries_funnel {step : Serialized.Step Entry} (free : ∀ i ∈ rest, i.task? ≠ some task)
    (legal : ∀ c ∈ held task (.funnel step :: rest) s, c.Legal deadline)
    (one : (held task (.funnel step :: rest) s).length ≤ 1)
    (performed : perform world me s own (.funnel step) rest = some effect) :
    Carries task s (.funnel step) rest effect := by
  cases step with
  | acquire entry =>
    simp only [perform, Serialized.Shared.perform] at performed
    by_cases mine : (Instruction.funnel (.acquire entry)).task? = some task
    · have none := cargo_eq_nil mine one
      have from_ := held_singleton_of_hand mine one
      split at performed
      · next busy =>
        cases performed
        exact .take rfl mine (List.forall_mem_cons.mpr ⟨by simp [Instruction.ofFunnel, Instruction.task?], free⟩) rfl trivial
          none (.of_eq from_) (.busy busy)
      · next idle =>
        cases performed
        exact .take rfl mine (List.forall_mem_cons.mpr ⟨by simp [Instruction.ofFunnel, Instruction.task?], free⟩) rfl rfl none
          (.of_eq from_) (.free (Bool.eq_false_iff.mpr idle))
    · split at performed
      all_goals
        cases performed
        refine .idle mine (fun i member => ?_) (by simp) (.refl _)
        simp only [List.map_cons, List.map_nil, Instruction.ofFunnel, List.cons_append, List.nil_append, List.mem_cons]
          at member
        rcases member with rfl | rfl | later
        · exact mine
        · simp [Instruction.task?]
        · exact free i later
  | enqueue entry =>
    cases performed
    have same := @cargoOf_funnel task entry s.funnel.queue _ s.scheduled.queue s.immediate.queue
      (List.perm_append_singleton entry s.funnel.queue)
    by_cases mine : (Instruction.funnel (.enqueue entry)).task? = some task
    · have isMine : isOf task entry = true := by simpa [isOf] using Option.some.inj mine
      have none : cargoOf task s.funnel.queue s.scheduled.queue s.immediate.queue = [] := cargo_eq_nil mine one
      rw [if_pos isMine, none] at same
      exact .put free rfl (.of_eq (held_singleton_of_hand mine one)) same .enqueue
    · have isOther : ¬ isOf task entry = true := by
        intro isMine
        exact mine (congrArg some (beq_iff_eq.mp isMine))
      rw [if_neg isOther] at same
      exact .idle mine free (by simp) same
  | retry | regain =>
    simp only [perform, Serialized.Shared.perform] at performed
    split at performed
    · cases performed
      exact .idle (by simp [Instruction.task?]) free (by simp) (.refl _)
    · cases performed
      refine .idle (by simp [Instruction.task?]) ?_ (by simp) (.refl _)
      exact List.forall_mem_cons.mpr ⟨by simp [Instruction.ofFunnel, Instruction.task?], free⟩
  | receive =>
    have other : (Instruction.funnel .receive).task? ≠ some task := by simp [Instruction.task?]
    simp only [perform, Serialized.Shared.perform] at performed
    split at performed
    · cases performed
      refine .idle other ?_ (by simp) (.refl _)
      exact List.forall_mem_cons.mpr ⟨by simp [Instruction.ofFunnel, Instruction.task?], free⟩
    · next entry queue isQueue =>
      cases performed
      have same := @cargoOf_funnel task entry queue _ s.scheduled.queue s.immediate.queue (.of_eq isQueue)
      have behind : ∀ i ∈ Instruction.funnel .receive :: rest, i.task? ≠ some task := List.forall_mem_cons.mpr ⟨other, free⟩
      by_cases mine : isOf task entry = true
      · rw [if_pos mine] at same
        have from_ : (held task (.funnel .receive :: rest) s).Perm _ := (List.Perm.of_eq (held_of_ne other)).trans same
        have none : cargoOf task queue s.scheduled.queue s.immediate.queue = [] := by
          have counted := from_.length_eq ▸ one
          exact List.length_eq_zero_iff.mp (by simpa using counted)
        rw [none] at from_
        exact .take rfl (congrArg some (beq_iff_eq.mp mine)) behind rfl rfl none from_ (.receive isQueue)
      · rw [if_neg mine] at same
        refine .idle other (List.forall_mem_cons.mpr ⟨?_, behind⟩) (by simp) same.symm
        intro isMine
        exact mine (beq_iff_eq.mpr (Option.some.inj isMine))
  | release =>
    cases performed
    refine .idle (by simp [Instruction.task?]) ?_ (by simp) (.refl _)
    exact List.forall_mem_cons.mpr ⟨by simp [Instruction.ofFunnel, Instruction.task?], free⟩
  | inspect =>
    simp only [perform, Serialized.Shared.perform] at performed
    split at performed
    · cases performed
      exact .idle (by simp [Instruction.task?]) free (by simp) (.refl _)
    · cases performed
      refine .idle (by simp [Instruction.task?]) ?_ (by simp) (.refl _)
      exact List.forall_mem_cons.mpr ⟨by simp [Instruction.ofFunnel, Instruction.task?], free⟩

private theorem carries_push {entry : Entry} (free : ∀ i ∈ rest, i.task? ≠ some task)
    (one : (held task (.push entry :: rest) s).length ≤ 1)
    (performed : perform world me s own (.push entry) rest = some effect) :
    Carries task s (.push entry) rest effect ∨
      (Instruction.push entry).task? = some task ∧ effect.shared.scheduled.stopped = true := by
  simp only [perform, Scheduled.Shared.push?] at performed
  by_cases mine : (Instruction.push entry).task? = some task
  · split at performed
    · next scheduled pushed =>
      split at pushed
      · cases pushed
      · cases pushed
        cases performed
        have same := @cargoOf_scheduled task entry s.funnel.queue _ _ s.immediate.queue (perm_place entry s.scheduled.queue)
        have isMine : isOf task entry = true := by simpa [isOf] using Option.some.inj mine
        have none : cargoOf task s.funnel.queue s.scheduled.queue s.immediate.queue = [] := cargo_eq_nil mine one
        rw [if_pos isMine, none] at same
        exact .inl (.put free rfl (.of_eq (held_singleton_of_hand mine one)) same .push)
    · next late =>
      split at late
      · next stopped =>
        cases performed
        exact .inr ⟨mine, stopped⟩
      · cases late
  · have isOther : ¬ isOf task entry = true := fun isMine => mine (congrArg some (beq_iff_eq.mp isMine))
    refine .inl ?_
    split at performed
    · next scheduled pushed =>
      split at pushed
      · cases pushed
      · cases pushed
        cases performed
        have same := @cargoOf_scheduled task entry s.funnel.queue _ _ s.immediate.queue (perm_place entry s.scheduled.queue)
        rw [if_neg isOther] at same
        exact .idle mine free (by simp) same
    · cases performed
      exact .idle mine (List.forall_mem_cons.mpr ⟨mine, free⟩) (by simp) (.refl _)

private theorem carries_take (free : ∀ i ∈ rest, i.task? ≠ some task)
    (legal : ∀ c ∈ held task (.take :: rest) s, c.Legal deadline) (one : (held task (.take :: rest) s).length ≤ 1)
    (performed : perform world me s own .take rest = some effect) : Carries task s .take rest effect := by
  have other : Instruction.take.task? ≠ some task := by simp [Instruction.task?]
  have behind : ∀ i ∈ Instruction.take :: rest, i.task? ≠ some task := List.forall_mem_cons.mpr ⟨other, free⟩
  simp only [perform, performTake, Scheduled.Shared.take] at performed
  by_cases stopped : s.scheduled.stopped = true
  · rw [if_pos stopped] at performed
    cases performed
    exact .idle other free (by simp) (.refl _)
  rw [if_neg stopped] at performed
  cases isQueue : s.scheduled.queue with
  | nil =>
    rw [isQueue] at performed
    cases performed
  | cons entry queue =>
    have same := @cargoOf_scheduled task entry s.funnel.queue queue _ s.immediate.queue (.of_eq isQueue)
    rw [isQueue] at performed
    by_cases due : entry.deadline ≤ world.now
    · simp only [due, if_true] at performed
      by_cases mine : isOf task entry = true
      · rw [if_pos mine] at same
        have from_ : (held task (.take :: rest) s).Perm _ := (List.Perm.of_eq (held_of_ne other)).trans same
        have none : cargoOf task s.funnel.queue queue s.immediate.queue = [] := by
          have counted := from_.length_eq ▸ one
          exact List.length_eq_zero_iff.mp (by simpa using counted)
        rw [none] at from_
        have isLegal := legal (.scheduled entry) (from_.symm.subset List.mem_cons_self)
        obtain ⟨-, job, isTask⟩ := isLegal
        rw [isTask] at performed
        cases performed
        refine .take rfl ?_ behind rfl rfl none from_ (.take isQueue isTask)
        simpa [isOf, isTask, Work.custody, Instruction.task?] using mine
      · rw [if_neg mine] at same
        have apart : ∀ work, entry.task = work → work.custody.2 ≠ task := by
          rintro _ rfl isMine
          exact mine (beq_iff_eq.mpr isMine)
        split at performed
        all_goals
          next isTask =>
            cases performed
            refine .idle other (List.forall_mem_cons.mpr ⟨?_, behind⟩) (by simp) same.symm
            exact fun isMine => apart _ isTask (Option.some.inj isMine)
    · simp only [due, if_false] at performed
      cases performed

/-- Nobody in the immediate pool comes to a task that is not there. -/
theorem unbound_of_perform {p p' : Immediate.Shared Job} {expired : Bool} {step : Immediate.Step Job}
    {next : List (Immediate.Next Job)} (other : (Instruction.immediate step).task? ≠ some task)
    (unbound : ∀ job ∈ p.queue, job.task ≠ task) (performs : p.perform expired step = some (p', next)) :
    (∀ job ∈ p'.queue, job.task ≠ task) ∧ ∀ i ∈ next.flatMap Instruction.ofImmediate, i.task? ≠ some task := by
  cases step with
  | countThreads | countQueue | park | choose | stop =>
    cases performs
    exact ⟨unbound, by simp [Instruction.ofImmediate, Instruction.task?]⟩
  | countIdle | claim | consider | retire =>
    simp only [Immediate.Shared.perform] at performs
    split at performs <;> cases performs <;> exact ⟨unbound, by simp [Instruction.ofImmediate, Instruction.task?]⟩
  | send job =>
    have isOther : job.task ≠ task := fun same => other (congrArg some same)
    simp only [Immediate.Shared.perform] at performs
    split at performs
    · cases performs
      refine ⟨fun one member => ?_, by simp [Instruction.ofImmediate, Instruction.task?]⟩
      rcases List.mem_append.mp member with before | last
      · exact unbound one before
      · exact List.mem_singleton.mp last ▸ isOther
    · cases performs
      exact ⟨unbound, by simpa [Instruction.ofImmediate, Instruction.task?] using isOther⟩
  | receive extra =>
    simp only [Immediate.Shared.perform] at performs
    split at performs
    · next job queue queued =>
      cases performs
      rw [queued] at unbound
      obtain ⟨isOther, unbound⟩ := List.forall_mem_cons.mp unbound
      exact ⟨unbound, by simpa [Instruction.ofImmediate, Instruction.task?] using isOther⟩
    · split at performs
      · cases performs
        exact ⟨unbound, by simp [Instruction.ofImmediate, Instruction.task?]⟩
      · split at performs <;> cases performs
        exact ⟨unbound, by simp [Instruction.ofImmediate, Instruction.task?]⟩
  | unpark received =>
    cases received with
    | job job =>
      have isOther : job.task ≠ task := fun same => other (congrArg some same)
      cases performs
      exact ⟨unbound, by simpa [Instruction.ofImmediate, Instruction.task?] using isOther⟩
    | timedOut | closed =>
      cases performs
      exact ⟨unbound, by simp [Instruction.ofImmediate, Instruction.task?]⟩

private theorem carries_immediate {step : Immediate.Step Job} (free : ∀ i ∈ rest, i.task? ≠ some task)
    (legal : ∀ c ∈ held task (.immediate step :: rest) s, c.Legal deadline)
    (performed : perform world me s own (.immediate step) rest = some effect) :
    Carries task s (.immediate step) rest effect := by
  have other : (Instruction.immediate step).task? ≠ some task := by
    intro mine
    exact legal _ (held_of_eq mine ▸ List.mem_cons_self)
  have none : ∀ {jobs : List Job}, (∀ job ∈ jobs, job.task ≠ task) → jobs.filter (·.task == task) = [] := by
    intro jobs others
    rw [List.filter_eq_nil_iff]
    exact fun job member => by simpa using others job member
  have unbound : ∀ job ∈ s.immediate.queue, job.task ≠ task := by
    rintro job member rfl
    refine legal (.bound job) ?_
    rw [held_of_ne other, State.cargo, cargoOf]
    simp [member]
  obtain ⟨⟨immediate, next⟩, performs, rfl⟩ := Option.map_eq_some_iff.mp performed
  obtain ⟨stays, goesOn⟩ := unbound_of_perform other unbound performs
  refine .idle other (fun i member => (List.mem_append.mp member).elim (goesOn i) (free i)) ?_ (.of_eq ?_)
  · intro thread member i here
    obtain ⟨one, -, starts⟩ := List.mem_filterMap.mp member
    cases one <;> simp at starts
    subst starts
    cases List.mem_singleton.mp here
    simp [Instruction.task?]
  · rw [State.cargo, State.cargo, cargoOf, cargoOf, none stays, none unbound]

/-- The queue is given up. -/
theorem carries_closeScheduled (free : ∀ i ∈ rest, i.task? ≠ some task)
    (performed : perform world me s own .closeScheduled rest = some effect) :
    Carries task s .closeScheduled rest effect ∨
      held task (.closeScheduled :: rest) s ≠ [] ∧ effect.shared.scheduled.stopped = true := by
  have other : Instruction.closeScheduled.task? ≠ some task := by simp [Instruction.task?]
  cases performed
  by_cases none : held task (.closeScheduled :: rest) s = []
  · rw [held_of_ne other, State.cargo, cargoOf, List.append_eq_nil_iff, List.append_eq_nil_iff, List.map_eq_nil_iff,
      List.map_eq_nil_iff] at none
    obtain ⟨-, unqueued, -⟩ := none
    refine .inl (.idle other (fun i member => ?_) (by simp) (.of_eq ?_))
    · simp only [List.mem_append, List.mem_map, List.mem_singleton] at member
      rcases member with (⟨entry, queued, rfl⟩ | rfl) | later
      · intro mine
        exact List.filter_eq_nil_iff.mp unqueued entry queued (beq_iff_eq.mpr (Option.some.inj mine))
      · simp [Instruction.task?]
      · exact free i later
    · simp [State.cargo, cargoOf, unqueued]
  · exact .inr ⟨none, rfl⟩

/-- A step carries a task from one place to the next, unless the pool is shut down or the task runs. -/
theorem carries (free : ∀ i ∈ rest, i.task? ≠ some task)
    (legal : ∀ c ∈ held task (instruction :: rest) s, c.Legal deadline) (one : (held task (instruction :: rest) s).length ≤ 1)
    (old : task ≠ s.records.length ∨ effect.shared.records.length ≤ s.records.length)
    (performed : perform world me s own instruction rest = some effect) :
    Carries task s instruction rest effect ∨ held task (instruction :: rest) s ≠ [] ∧
      (effect.shared.scheduled.stopped = true ∨ ∃ job, instruction = .run job ∧ job.task = task) := by
  cases instruction with
  | draw => exact .inl (carries_draw free legal one performed)
  | funnel => exact .inl (carries_funnel free legal one performed)
  | immediate => exact .inl (carries_immediate free legal performed)
  | take => exact .inl (carries_take free legal one performed)
  | push =>
    refine (carries_push free one performed).imp_right fun ⟨mine, stopped⟩ => ⟨?_, .inl stopped⟩
    rw [held_of_eq mine]
    exact List.cons_ne_nil _ _
  | closeScheduled => exact (carries_closeScheduled free performed).imp_right fun ⟨there, stopped⟩ => ⟨there, .inl stopped⟩
  | closeImmediate =>
    cases performed
    exact .inl (.idle (by simp [Instruction.task?]) free (by simp) (.refl _))
  | run job =>
    by_cases mine : job.task = task
    · refine .inr ⟨?_, .inr ⟨job, rfl, mine⟩⟩
      have inHand : (Instruction.run job).task? = some task := congrArg some mine
      rw [held_of_eq inHand]
      exact List.cons_ne_nil _ _
    · exact .inl ((aside_of_perform rfl performed).carries free old fun same => mine (Option.some.inj same))
  | _ =>
    refine .inl ((aside_of_perform rfl performed).carries free old fun mine => ?_)
    exact legal _ (held_of_eq mine ▸ List.mem_cons_self)

end Perform

end PeerSubstrate.Executor.Pool
