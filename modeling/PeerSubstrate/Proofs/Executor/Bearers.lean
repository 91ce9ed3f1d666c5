import PeerSubstrate.Proofs.Executor.Manning
import PeerSubstrate.Proofs.Executor.Repetition

/-!
# Who bears a task

At every time, whatever the clock says, a task is held by one party at most, and held as a task of its kind is: a one-off task
to be queued or run once, a repeating one to be run again and again (`Borne`). A one-off task that is held has not begun, so
what is noted as the run of a job is the beginning of its script, or the task was cancelled before (`began_or_cancelled_of_ran`).
-/

namespace PeerSubstrate.Executor.Pool
open PeerSubstrate.Concurrency
open Instruction (custody?)

/-- The task is held as one of its kind. -/
def Suits : Custody → Option Record → Prop
  | .repeating, some (.periodic _) => True
  | .waiting, some .detached | .waiting, some (.oneOff _) | .bound, some .detached | .bound, some (.oneOff _) => True
  | _, _ => False

/-- A one-off task has not begun to run: it is pending, or it was cancelled before it could begin. -/
def Unrun : Option Record → Prop
  | some (.oneOff cell) => cell.state = .pending ∨ cell.state = .finished (.error .cancelled) ∧ cell.cancelled = true
  | _ => True

/-- How often the task is held, in whatever way. -/
def bearers (held : Custody × Nat → Nat) (task : Nat) : Nat :=
  held (.waiting, task) + held (.bound, task) + held (.repeating, task)

section Suits

variable {task : Nat} {kind : Custody} {record record' : Option Record} {held held' : List Custody} {events : List Event}

theorem Suits.known (suits : Suits kind record) : known record = 1 := by
  cases record with
  | none => cases kind <;> cases suits
  | some => rfl

theorem Suits.repeating (suits : Suits .repeating record) : ∃ state, record = some (.periodic state) := by
  cases record with
  | none => cases suits
  | some record =>
    cases record with
    | periodic state => exact ⟨state, rfl⟩
    | detached | oneOff => cases suits

private theorem Suits.plain (suits : Suits .bound record) : record = some .detached ∨ ∃ cell, record = some (.oneOff cell) := by
  cases record with
  | none => cases suits
  | some record =>
    cases record with
    | detached => exact .inl rfl
    | oneOff cell => exact .inr ⟨cell, rfl⟩
    | periodic => cases suits

private theorem Suits.map_periodic {f : PeriodicState → PeriodicState} (suits : Suits kind record) :
    Suits kind (record.map (.mapPeriodic f)) := by
  cases record with
  | none => cases kind <;> cases suits
  | some record => cases record <;> cases kind <;> trivial

private theorem Suits.map_cell {f : TaskCell Int64 → TaskCell Int64} (suits : Suits kind record) :
    Suits kind (record.map (.mapCell f)) := by
  cases record with
  | none => cases kind <;> cases suits
  | some record => cases record <;> cases kind <;> trivial

/-- A task that is held stays one of its kind, -/
theorem Fares.suits (fares : Fares task record held record' held' events) (suits : Suits kind record) : Suits kind record' := by
  cases fares with
  | submitted => cases kind <;> cases suits
  | marked | ended => exact suits.map_periodic
  | dropped => exact suits.map_cell
  | began | stored | cancelled | stopped => cases kind <;> exact suits
  | _ => exact suits

/-- and whoever comes to hold it holds it as one. -/
theorem Fares.suits_held (fares : Fares task record held record' held' events) (suits : ∀ kind ∈ held, Suits kind record) :
    ∀ kind ∈ held', Suits kind record' := by
  intro kind member
  cases fares with
  | submitted fresh =>
    cases List.mem_singleton.mp member
    cases fresh <;> trivial
  | accepted | picked =>
    cases List.mem_singleton.mp member
    have waits := suits .waiting List.mem_cons_self
    cases record with
    | none => cases waits
    | some record => cases record <;> trivial
  | fired => exact suits kind member
  | _ => cases member

/-- Only with a new task somebody comes to hold one who did not hold it before. -/
theorem Fares.bearers (fares : Fares task record held record' held' events) : held'.length + known record ≤ held.length + known record' := by
  cases fares with
  | submitted | accepted | picked | began | skipped | detached | fired | ceased | stored | cancelled | stopped => simp [known]
  | marked | dropped | ended => simp [known, Option.isSome_map]

private theorem Unrun.map_periodic {f : PeriodicState → PeriodicState} (unrun : Unrun record) :
    Unrun (record.map (.mapPeriodic f)) := by
  cases record with
  | none => trivial
  | some record =>
    cases record with
    | oneOff => exact unrun
    | detached | periodic => trivial

private theorem Unrun.cancel {cell : TaskCell Int64} (unrun : Unrun (some (.oneOff cell))) (mayInterrupt : Bool) :
    Unrun (some (.oneOff (cell.cancel mayInterrupt).2)) := by
  obtain pending | ⟨finished, cancelled⟩ := unrun
  · exact .inr (by simp [TaskCell.cancel, pending])
  · exact .inr (by simp [TaskCell.cancel, finished, cancelled])

/-- A task that is held has not begun to run, for the only one who held it lets go of it when it does. -/
theorem Fares.unrun {n n' : Nat} (fares : Fares task record held record' held' events) (unrun : 0 < n → Unrun record)
    (once : n ≤ known record) (balance : n' + held.length = n + held'.length) (holds : 0 < n') : Unrun record' := by
  have single : n ≤ 1 := Nat.le_trans once (Bool.toNat_le _)
  have stays : held.length ≤ held'.length := by omega
  have still : held'.length = held.length → Unrun record := fun same => unrun (by omega)
  cases fares with
  | marked => exact (still rfl).map_periodic
  | submitted fresh =>
    cases fresh with
    | oneOff => exact .inl rfl
    | detached | periodic => trivial
  | accepted | picked | fired => exact still rfl
  | dropped | began | skipped | detached | ended | ceased => exact absurd stays (by decide)
  | stored result running =>
    obtain pending | ⟨finished, -⟩ := still rfl
    · simp [running] at pending
    · simp [running] at finished
  | cancelled mayInterrupt => exact (still rfl).cancel mayInterrupt
  | stopped => trivial

end Suits

/-- What holds along every run. -/
structure Borne (s : System State Own Instruction) : Prop where
  orderly : ∀ thread ∈ s.threads, Orderly thread.todo
  unladen : ∀ thread ∈ s.threads, Unladen thread.todo
  suits : ∀ task kind, 0 < (holdings s).count (kind, task) → Suits kind s.shared.records[task]?
  once : ∀ task, bearers (fun x => (holdings s).count x) task ≤ known s.shared.records[task]?
  unrun : ∀ task, 0 < bearers (fun x => (holdings s).count x) task → Unrun s.shared.records[task]?

section Step

variable {h h' : Stock} {gone new : List Instruction} {events : List Event} {task : Nat} {before after others : Custody × Nat → Nat}

private theorem length_eq_count (held : List Custody) :
    held.length = held.count .waiting + held.count .bound + held.count .repeating := by
  induction held with
  | nil => rfl
  | cons kind held ih => cases kind <;> simp [ih] <;> omega

theorem Accounts.bearers {h h' : Stock} {gone new : List Instruction} {events : List Event} {subject : Nat}
    {held held' : List Custody} {before after others : Custody × Nat → Nat}
    (accounts : Accounts h gone h' new events subject held held') (heldBefore : ∀ x, before x = (h.held gone).count x + others x)
    (heldAfter : ∀ x, after x = (h'.held new).count x + others x) :
    held.length ≤ Pool.bearers before subject ∧
      Pool.bearers after subject + held.length = Pool.bearers before subject + held'.length ∧
      ∀ task, task ≠ subject → Pool.bearers after task = Pool.bearers before task := by
  obtain ⟨part, moved, unmoved⟩ := accounts.moved heldBefore heldAfter
  rw [length_eq_count, length_eq_count]
  refine ⟨Nat.add_le_add (Nat.add_le_add (part _) (part _)) (part _), ?_, fun task apart => ?_⟩
  · have waits := moved .waiting
    have binds := moved .bound
    have repeats := moved .repeating
    simp only [Pool.bearers]
    omega
  · simp only [Pool.bearers, unmoved task apart]

/-- Whoever comes to hold a task holds it as one of its kind, and there are no more of them unless it is a new task, nor does
any of them hold a task that has begun to run. -/
theorem Alters.borne (alters : Alters h gone h' new events) (heldBefore : ∀ x, before x = (h.held gone).count x + others x)
    (heldAfter : ∀ x, after x = (h'.held new).count x + others x)
    (suits : ∀ kind, 0 < before (kind, task) → Suits kind h.records[task]?) (once : bearers before task ≤ known h.records[task]?)
    (unrun : 0 < bearers before task → Unrun h.records[task]?) :
    (∀ kind, 0 < after (kind, task) → Suits kind h'.records[task]?) ∧
      bearers after task + known h.records[task]? ≤ bearers before task + known h'.records[task]? ∧
      (0 < bearers after task → Unrun h'.records[task]?) := by
  cases alters with
  | changes changes =>
    obtain ⟨subject, held, held', accounts⟩ := changes.accounts
    obtain ⟨part, moved, unmoved⟩ := accounts.moved heldBefore heldAfter
    obtain ⟨-, balance, apart⟩ := accounts.bearers heldBefore heldAfter
    by_cases isSubject : task = subject
    · subst isSubject
      refine ⟨?_, ?_, accounts.fares.unrun unrun once balance⟩
      · intro kind holds
        by_cases holder : kind ∈ held'
        · refine accounts.fares.suits_held (fun kind member => suits kind ?_) kind holder
          have inside := part kind
          have one := List.count_pos_iff.mpr member
          omega
        · rw [← List.count_eq_zero] at holder
          have here := moved kind
          exact accounts.fares.suits (suits kind (by omega))
      · have fewer := accounts.fares.bearers
        omega
    · rw [accounts.elsewhere task isSubject, apart task isSubject]
      exact ⟨fun kind holds => suits kind (unmoved task isSubject kind ▸ holds), Nat.le_refl _, unrun⟩
  | lapse entry =>
    -- The task is lost, and nobody holds it.
    have fewer : ∀ x, after x ≤ before x := by
      intro x
      rw [heldBefore, heldAfter, Stock.count_held, Stock.count_held, List.filterMap_nil, List.count_nil]
      omega
    have noMore : bearers after task ≤ bearers before task := Nat.add_le_add (Nat.add_le_add (fewer _) (fewer _)) (fewer _)
    exact ⟨fun kind holds => suits kind (Nat.lt_of_lt_of_le holds (fewer _)), Nat.add_le_add_right noMore _,
      fun holds => unrun (Nat.lt_of_lt_of_le holds noMore)⟩

variable {world : World} {threads threads' : List (Thread Own Instruction)} {own : Own} {instruction : Instruction}
  {rest : List Instruction} {effect : Effect State Own Instruction Event} {shared : State}

theorem Borne.proceeds (borne : Borne ⟨shared, threads ++ ⟨own, instruction :: rest⟩ :: threads'⟩)
    (sound : Sound ⟨shared, threads ++ ⟨own, instruction :: rest⟩ :: threads'⟩)
    (performed : perform world threads.length shared own instruction rest = some effect) :
    Proceeds shared.stock instruction rest effect :=
  (borne.orderly _ mem_middle).proceeds (borne.unladen _ mem_middle)
    (fun _ _ _ stores found => sound.running_next stores found) performed

theorem Borne.kept (borne : Borne ⟨shared, threads ++ ⟨own, instruction :: rest⟩ :: threads'⟩)
    (proceeds : Proceeds shared.stock instruction rest effect) (task : Nat) :
    (∀ kind, 0 < (holdings ⟨effect.shared, threads ++ effect.thread :: (threads' ++ effect.started)⟩).count (kind, task) →
      Suits kind effect.shared.records[task]?) ∧
    bearers (fun x => (holdings ⟨effect.shared, threads ++ effect.thread :: (threads' ++ effect.started)⟩).count x) task +
        known shared.records[task]? ≤
      bearers (fun x => (holdings ⟨shared, threads ++ ⟨own, instruction :: rest⟩ :: threads'⟩).count x) task +
        known effect.shared.records[task]? ∧
    (0 < bearers (fun x => (holdings ⟨effect.shared, threads ++ effect.thread :: (threads' ++ effect.started)⟩).count x) task →
      Unrun effect.shared.records[task]?) := by
  obtain ⟨-, -, new, same, alters⟩ := proceeds
  obtain ⟨others, todoBefore, todoAfter⟩ := @todo_parts threads threads' own instruction rest effect shared _ _ _
    weighs_custody same
  exact @Alters.borne _ _ _ _ _ task _ _ _ alters (Stock.count_held_of_perm todoBefore) (Stock.count_held_of_perm todoAfter)
    (borne.suits task) (borne.once task) (borne.unrun task)

theorem Borne.step (borne : Borne ⟨shared, threads ++ ⟨own, instruction :: rest⟩ :: threads'⟩)
    (sound : Sound ⟨shared, threads ++ ⟨own, instruction :: rest⟩ :: threads'⟩)
    (performed : perform world threads.length shared own instruction rest = some effect) :
    Borne ⟨effect.shared, threads ++ effect.thread :: (threads' ++ effect.started)⟩ := by
  have proceeds := borne.proceeds sound performed
  have orderly := borne.orderly _ mem_middle
  have unladen := borne.unladen _ mem_middle
  constructor
  case orderly =>
    intro thread member
    rcases mem_threads_iff.mp member with rfl | other | started
    · exact proceeds.orderly
    · exact borne.orderly thread (mem_of_other other)
    · exact proceeds.starts thread started
  case unladen =>
    intro thread member
    rcases mem_threads_iff.mp member with rfl | other | started
    · exact ((goesOn_of_perform performed).spares orderly unladen).1
    · exact borne.unladen thread (mem_of_other other)
    · rw [(delivers_of_perform orderly unladen performed).starts thread started]
      exact unladen_of_calm (by simp [Instruction.cycles])
  case suits => exact fun task => (borne.kept proceeds task).1
  case once =>
    intro task
    have past : _ ≤ known shared.records[task]? := borne.once task
    have grown := (borne.kept proceeds task).2.1
    change _ ≤ known effect.shared.records[task]?
    omega
  case unrun => exact fun task => (borne.kept proceeds task).2.2

end Step

section Run

variable {config : Config} {calls : List (List Call)} {s : System State Own Instruction} {seen : List Event} {task : Nat}

theorem Borne.start (config : Config) (calls : List (List Call)) : Borne (withClients config calls) := by
  have secure := Secure.start config calls
  have free : ∀ kind task, (holdings (withClients config calls)).count (kind, task) = 0 := fun kind task => (secure.kept task).1 kind
  constructor
  case orderly => exact secure.orderly
  case unladen => exact fun thread member => unladen_withClients member
  case suits =>
    intro task kind holds
    rw [free] at holds
    cases holds
  case once =>
    intro task
    simp only [bearers, free]
    exact Nat.zero_le _
  case unrun =>
    intro task holds
    simp [bearers, free] at holds

theorem Borne.run (run : machine.Run (withClients config calls) s seen) : Borne s :=
  run.along (.start config calls) fun past borne performed => borne.step ((Sound.start config calls).run past) performed

/-- How many hold the task. -/
def holders (task : Nat) (s : System State Own Instruction) : Nat := (holdings s).countP (·.2 == task)

theorem bearers_eq (held : List (Custody × Nat)) (task : Nat) : bearers (fun x => held.count x) task = held.countP (·.2 == task) := by
  induction held with
  | nil => rfl
  | cons first held ih =>
    obtain ⟨kind, other⟩ := first
    simp only [bearers] at ih ⊢
    rw [List.countP_cons, ← ih]
    by_cases same : other = task
    · subst same
      cases kind <;> simp <;> omega
    · cases kind <;> simp [same]

theorem Borne.holders_le (borne : Borne s) (task : Nat) : holders task s ≤ known s.shared.records[task]? := by
  rw [holders, ← bearers_eq]
  exact borne.once task

/-- Whoever has a repeating task to do has one that repeats, -/
theorem Borne.repeats (borne : Borne s) {i : Instruction} (member : i ∈ s.todo) (holds : custody? i = some (.repeating, task)) :
    ∃ state, s.shared.records[task]? = some (.periodic state) :=
  (borne.suits task .repeating (List.count_pos_iff.mpr (mem_holdings member holds))).repeating

/-- and whoever is about to run a job has one that does not. -/
theorem Borne.plain (borne : Borne s) {job : Job} (member : .run job ∈ s.todo) :
    s.shared.records[job.task]? = some .detached ∨ ∃ cell, s.shared.records[job.task]? = some (.oneOff cell) :=
  (borne.suits job.task .bound (List.count_pos_iff.mpr (mem_holdings member rfl))).plain

/-- A task whose job somebody is about to run has not begun. -/
theorem Borne.not_begun (borne : Borne s) {job : Job} (member : .run job ∈ s.todo) : Unrun s.shared.records[job.task]? := by
  refine borne.unrun job.task ?_
  rw [bearers_eq]
  exact List.countP_pos_iff.mpr ⟨_, mem_holdings member rfl, by simp⟩

/-- What is noted as the run of a job is the beginning of its script, unless its task was cancelled before, and then nothing
happens. -/
theorem began_or_cancelled_of_ran {world : World} {i : Nat} {u : System State Own Instruction} {events : List Event}
    {instruction : Instruction} (run : machine.Run (withClients config calls) s seen)
    (stepped : machine.step world i s = some (u, events)) (next : nextOf i s = some instruction)
    (ran : .ran task ∈ deeds instruction events) :
    .began task ∈ events ∨ u.shared = s.shared ∧ events = [] ∧
      ∃ cell, s.shared.records[task]? = some (.oneOff cell) ∧ cell.state = .finished (.error .cancelled) ∧
        cell.cancelled = true := by
  obtain ⟨job, rfl, rfl⟩ := ran_mem_deeds.mp ran
  obtain ⟨before, own, _, rest, after, effect, threads, rfl, performed, rfl, rfl⟩ := Machine.step_eq_some_iff.mp stepped
  rw [nextOf, threads, getElem?_middle] at next
  cases next
  have inTodo : .run job ∈ s.todo := by simp [System.todo, threads]
  have unrun := (Borne.run run).not_begun inTodo
  change performRun s.shared own rest job = some effect at performed
  rw [performRun] at performed
  split at performed
  next cell isCell =>
    split at performed
    · cases performed
      exact .inl (List.mem_singleton.mpr rfl)
    next ended =>
      cases performed
      rw [isCell] at unrun
      obtain pending | cancelled := unrun
      · simp [TaskCell.begin?, pending] at ended
      · exact .inr ⟨rfl, rfl, cell, isCell, cancelled⟩
  · cases performed
    exact .inl (List.mem_singleton.mpr rfl)

end Run

end PeerSubstrate.Executor.Pool
