import PeerSubstrate.Proofs.Executor.Holdings

/-!
# Scripts and the count of their runs

A thread that runs a repeating task counts the run right after its script has ended (`Framed`). What a step does to the
scripts of its thread is said once (`Plays`), and so is what becomes of the record of a task meanwhile (`Grows`). So a
script that has begun ends once, and a run that has ended at its end is counted once (`Plays.balance`, `Plays.credit`).
-/

namespace PeerSubstrate.Executor.Pool
open PeerSubstrate.Time PeerSubstrate.Concurrency
open Instruction (unwind)

namespace Instruction

/-- The end of a script, and what follows until its run is counted. -/
def frames : Instruction → Bool
  | .caught _ | .publish _ | .count _ => true
  | _ => false

/-- The script of the task is still running. -/
def runs (task : Nat) : Instruction → Bool
  | .caught other => other == task
  | _ => false

/-- A run of the task is still to be counted. -/
def counts (task : Nat) : Instruction → Bool
  | .count entry => entry.task.task == task
  | _ => false

/-- Repeating tasks do not go through the funnel. -/
def straight : Instruction → Bool
  | .draw _ (.periodic _) funnelled => !funnelled
  | .funnel (.acquire entry) | .funnel (.enqueue entry) => match entry.task with
    | .once _ => true
    | .periodic _ => false
  | _ => true

end Instruction

open Instruction (frames straight)

/-- The script of some task begins or ends. -/
def Event.ofScript : Event → Bool
  | .began _ | .ended _ _ => true
  | _ => false

/-- The script of the task begins, -/
def Event.begins (task : Nat) : Event → Bool
  | .began other => other == task
  | _ => false

/-- and ends, in whatever way, -/
def Event.ends (task : Nat) : Event → Bool
  | .ended other _ => other == task
  | _ => false

/-- or at its end. -/
def Event.completes (task : Nat) : Event → Bool
  | .ended other atItsEnd => atItsEnd && other == task
  | _ => false

/-- The run that is counted next, with nothing but the interrupt mark to be taken back before. -/
def counted? : List Instruction → Option (Scheduled.Entry Periodic)
  | .publish _ :: rest => counted? rest
  | .count entry :: _ => some entry
  | _ => none

/-- The run that is counted next is one of the task. -/
def awaited (task : Nat) (todo : List Instruction) : Bool := (counted? todo).any (·.task.task == task)

/-- The task has been submitted, and does not repeat. -/
def Plain (records : List Record) (task : Nat) : Prop :=
  ∃ record, records[task]? = some record ∧ ∀ state, record ≠ .periodic state

/-- Runs are counted right after scripts of their tasks, and nowhere else; every script is followed by the count of its run
unless its task does not repeat. -/
def Framed (records : List Record) : List Instruction → Prop
  | [] => True
  | .publish _ :: rest => Framed records rest
  | .caught task :: rest =>
    (match counted? rest with
      | some entry => entry.task.task = task
      | none => Plain records task) ∧ Framed records rest
  | _ :: rest => counted? rest = none ∧ Framed records rest

section Framed

variable {records : List Record} {i : Instruction} {new rest : List Instruction}

private theorem counted?_cons (light : i.frames = false) : counted? (i :: rest) = none := by
  cases i <;> first | rfl | cases light

private theorem counted?_append (light : ∀ j ∈ new, j.frames = false) (uncounted : counted? rest = none) :
    counted? (new ++ rest) = none := by
  cases new with
  | nil => exact uncounted
  | cons j new => exact counted?_cons (light j List.mem_cons_self)

theorem counted?_light (light : ∀ j ∈ new, j.frames = false) : counted? new = none :=
  List.append_nil new ▸ counted?_append light rfl

private theorem Framed.tail (framed : Framed records (i :: rest)) : Framed records rest := by
  cases i with
  | publish => exact framed
  | _ => exact framed.2

private theorem Framed.next (framed : Framed records (i :: rest)) (light : i.frames = false) : counted? rest = none := by
  cases i <;> first | exact framed.1 | cases light

private theorem framed_cons (light : i.frames = false) (uncounted : counted? rest = none) (framed : Framed records rest) :
    Framed records (i :: rest) := by
  cases i <;> first | exact ⟨uncounted, framed⟩ | cases light

private theorem framed_append (light : ∀ j ∈ new, j.frames = false) (uncounted : counted? rest = none)
    (framed : Framed records rest) : Framed records (new ++ rest) := by
  induction new with
  | nil => exact framed
  | cons j new ih =>
    obtain ⟨here, others⟩ := List.forall_mem_cons.mp light
    exact framed_cons here (counted?_append others uncounted) (ih others)

theorem framed_light (light : ∀ j ∈ new, j.frames = false) : Framed records new :=
  List.append_nil new ▸ framed_append light rfl trivial

private theorem Framed.unwind (framed : Framed records rest) : Framed records (unwind rest) := by
  induction rest with
  | nil => trivial
  | cons i rest ih =>
    rw [Instruction.unwind, List.dropWhile_cons]
    split
    · exact ih framed.tail
    · exact framed

/-- A panic stops in front of the end of a script, or of the thread. -/
theorem counted?_unwind (rest : List Instruction) : counted? (unwind rest) = none := by
  induction rest with
  | nil => rfl
  | cons i rest ih =>
    rw [Instruction.unwind, List.dropWhile_cons]
    split
    · exact ih
    · next stops => cases i <;> first | rfl | simp [Instruction.stopsPanic] at stops

private theorem frames_acts (script : Script) : ∀ j ∈ script.map Instruction.act, j.frames = false := by
  intro j member
  obtain ⟨action, -, rfl⟩ := List.mem_map.mp member
  rfl

/-- A script under the interrupt mark of its task. -/
theorem Framed.guarded {task : Nat} {previous : Option Nat} (script : Script)
    (ends : Framed records (.caught task :: .publish previous :: rest)) :
    Framed records (Instruction.guarded task script previous ++ rest) := by
  have uncounted : counted? (.caught task :: .publish previous :: rest) = none := rfl
  have inside := framed_append (frames_acts script) uncounted ends
  simpa [Instruction.guarded, Framed] using inside

private theorem counted?_guarded (task : Nat) (script : Script) (previous : Option Nat) (rest : List Instruction) :
    counted? (Instruction.guarded task script previous ++ rest) = none := by
  have inside : counted? (script.map .act ++ .caught task :: .publish previous :: rest) = none :=
    counted?_append (frames_acts script) rfl
  simpa [Instruction.guarded, counted?] using inside

/-- The monotonicity of what is known of tasks. -/
theorem Framed.mono {records' : List Record} (more : ∀ task, Plain records task → Plain records' task)
    (framed : Framed records rest) : Framed records' rest := by
  induction rest with
  | nil => trivial
  | cons i rest ih =>
    cases i with
    | publish => exact ih framed
    | caught task =>
      refine ⟨?_, ih framed.2⟩
      have followed := framed.1
      cases isCounted : counted? rest with
      | some entry =>
        rw [isCounted] at followed
        exact followed
      | none =>
        rw [isCounted] at followed
        exact more task followed
    | _ => exact ⟨framed.1, ih framed.2⟩

/-- Each script of a repeating task has a run of its own to be counted. -/
theorem Framed.countP_le {task : Nat} (framed : Framed records rest) (repeats : ¬ Plain records task) :
    rest.countP (Instruction.runs task) + (awaited task rest).toNat ≤ rest.countP (Instruction.counts task) := by
  induction rest with
  | nil => exact Nat.le_refl 0
  | cons i rest ih =>
    have within := ih framed.tail
    cases i with
    | publish => exact within
    | count entry =>
      have uncounted : counted? rest = none := framed.1
      have isNext : awaited task (.count entry :: rest) = Instruction.counts task (.count entry) := rfl
      rw [awaited, uncounted] at within
      rw [isNext, List.countP_cons_of_neg (by simp [Instruction.runs]), List.countP_cons]
      cases Instruction.counts task (.count entry) <;> simp at within ⊢ <;> omega
    | caught other =>
      have followed := framed.1
      have isNext : awaited task (.caught other :: rest) = false := rfl
      rw [isNext, List.countP_cons_of_neg (p := Instruction.counts task) (by simp [Instruction.counts])]
      by_cases same : other = task
      · rw [List.countP_cons_of_pos (by simp [Instruction.runs, same])]
        cases isCounted : counted? rest with
        | none =>
          rw [isCounted] at followed
          exact absurd (same ▸ followed) repeats
        | some entry =>
          rw [isCounted] at followed
          have isTask : entry.task.task = task := followed.trans same
          simpa [awaited, isCounted, isTask] using within
      · rw [List.countP_cons_of_neg (by simpa [Instruction.runs] using same)]
        exact Nat.le_of_add_right_le within
    | _ => exact Nat.le_of_add_right_le within

end Framed

/-! ## Steps -/

/-- What a step does to the scripts of its thread, and which of them begin and end. A panic leads to the end of a
script; after it the run of a repeating task is counted, or not if it ended in the panic. -/
inductive Plays (records : List Record) :
    Thread Own Instruction → Thread Own Instruction → List Event → Prop
  | aside {own own' i rest new} : i.frames = false → (∀ j ∈ new, j.frames = false) →
      Plays records ⟨own, i :: rest⟩ ⟨own', new ++ rest⟩ []
  | raised {own own' i rest} : i.frames = false → Plays records ⟨own, i :: rest⟩ ⟨own', unwind rest⟩ []
  | ran {own own' job rest} (previous : Option Nat) : Plain records job.task →
      Plays records ⟨own, .run job :: rest⟩
        ⟨own', Instruction.guarded job.task job.script previous ++ (.conclude job.task :: rest)⟩ [.began job.task]
  | detached {own own' job rest} : Plain records job.task →
      Plays records ⟨own, .run job :: rest⟩ ⟨own', job.script.map .act ++ (.caught job.task :: rest)⟩ [.began job.task]
  | fired {own own' entry rest} (script : Script) (previous : Option Nat) : Plays records ⟨own, .fire entry :: rest⟩
      ⟨own', Instruction.guarded entry.task.task script previous ++ (.count entry :: rest)⟩ [.began entry.task.task]
  | ended {own task rest} : Plays records ⟨own, .caught task :: rest⟩ ⟨own, rest⟩ [.ended task own.outcome.toBool]
  | published {own own' shown rest} : own'.outcome = own.outcome →
      Plays records ⟨own, .publish shown :: rest⟩ ⟨own', rest⟩ []
  | counted {own entry rest} : own.outcome.toBool = true →
      Plays records ⟨own, .count entry :: rest⟩ ⟨own, .recheck entry :: rest⟩ []
  | failed {own entry rest} : own.outcome.toBool = false →
      Plays records ⟨own, .count entry :: rest⟩ ⟨own, rest⟩ []

/-- The thread is about to count a run of the task that has come to its end. -/
def due (task : Nat) (thread : Thread Own Instruction) : Bool := thread.own.outcome.toBool && awaited task thread.todo

/-- It counts such a run next. -/
def credit (task : Nat) (thread : Thread Own Instruction) : Bool :=
  match thread.todo with
  | .count _ :: _ => due task thread
  | _ => false

section Plays

variable {records : List Record} {thread thread' : Thread Own Instruction} {events : List Event}

theorem Plays.framed (plays : Plays records thread thread' events) (framed : Framed records thread.todo) :
    Framed records thread'.todo := by
  cases plays with
  | aside light lights => exact framed_append lights (framed.next light) framed.tail
  | raised => exact framed.tail.unwind
  | ran previous plain => exact Framed.guarded _ ⟨plain, framed⟩
  | @detached _ _ job rest plain =>
    refine framed_append (frames_acts _) rfl ⟨?_, framed.tail⟩
    have uncounted : counted? rest = none := framed.next rfl
    rw [uncounted]
    exact plain
  | fired script previous => exact Framed.guarded _ ⟨rfl, framed⟩
  | ended => exact framed.tail
  | published => exact framed
  | counted => exact framed
  | failed => exact framed.2

private theorem runs_unwind (task : Nat) (rest : List Instruction) :
    (unwind rest).countP (Instruction.runs task) = rest.countP (Instruction.runs task) := by
  induction rest with
  | nil => rfl
  | cons i rest ih =>
    rw [Instruction.unwind, List.dropWhile_cons]
    split
    · next passes =>
      rw [List.countP_cons_of_neg]
      · exact ih
      · cases i with
        | caught => simp [Instruction.stopsPanic] at passes
        | _ => simp [Instruction.runs]
    · rfl

private theorem runs_acts (task : Nat) (script : Script) : (script.map .act).countP (Instruction.runs task) = 0 := by
  rw [List.countP_eq_zero]
  intro j member
  obtain ⟨action, -, rfl⟩ := List.mem_map.mp member
  simp [Instruction.runs]

private theorem runs_of_light {i : Instruction} (task : Nat) (light : i.frames = false) : i.runs task = false := by
  cases i <;> first | rfl | cases light

private theorem runs_cons {task : Nat} {i : Instruction} {rest : List Instruction} (others : i.runs task = false) :
    (i :: rest).countP (Instruction.runs task) = rest.countP (Instruction.runs task) :=
  List.countP_cons_of_neg (by simp [others])

theorem runs_light {task : Nat} {new : List Instruction} (lights : ∀ j ∈ new, j.frames = false) :
    new.countP (Instruction.runs task) = 0 :=
  List.countP_eq_zero.mpr fun j member => by simp [runs_of_light task (lights j member)]

private theorem runs_caught (task other : Nat) (rest : List Instruction) :
    (Instruction.caught other :: rest).countP (Instruction.runs task) =
      rest.countP (Instruction.runs task) + if other = task then 1 else 0 := by
  simp [List.countP_cons, Instruction.runs]

private theorem runs_guarded (task other : Nat) (script : Script) (previous : Option Nat) (rest : List Instruction) :
    (Instruction.guarded other script previous ++ rest).countP (Instruction.runs task) =
      rest.countP (Instruction.runs task) + if other = task then 1 else 0 := by
  have ends : [Instruction.caught other, .publish previous].countP (Instruction.runs task) = if other = task then 1 else 0 := by
    simp [List.countP_cons, Instruction.runs]
  have shows : [Instruction.publish (some other)].countP (Instruction.runs task) = 0 := by simp [Instruction.runs]
  rw [Instruction.guarded, List.countP_append, List.countP_append, List.countP_append, runs_acts, ends, shows]
  omega

private theorem began_countP (task other : Nat) :
    [Event.began other].countP (Event.begins task) = (if other = task then 1 else 0) ∧
    [Event.began other].countP (Event.ends task) = 0 := by
  simp [List.countP_cons, Event.begins, Event.ends]

/-- A script that begins has its end before it. -/
theorem Plays.balance (plays : Plays records thread thread' events) (task : Nat) :
    thread'.todo.countP (Instruction.runs task) + events.countP (Event.ends task) =
      thread.todo.countP (Instruction.runs task) + events.countP (Event.begins task) := by
  cases plays with
  | aside light lights =>
    rw [runs_cons (runs_of_light task light), List.countP_append, runs_light lights, Nat.zero_add]
    rfl
  | raised light =>
    rw [runs_cons (runs_of_light task light), runs_unwind]
    rfl
  | @ran _ _ job =>
    obtain ⟨begins, ends⟩ := began_countP task job.task
    rw [runs_guarded, runs_cons rfl, runs_cons rfl, begins, ends]
    rfl
  | @detached _ _ job =>
    obtain ⟨begins, ends⟩ := began_countP task job.task
    rw [List.countP_append, runs_acts, runs_caught, runs_cons rfl, begins, ends]
    omega
  | @fired _ _ entry =>
    obtain ⟨begins, ends⟩ := began_countP task entry.task.task
    rw [runs_guarded, runs_cons rfl, runs_cons rfl, begins, ends]
    rfl
  | @ended own other =>
    rw [runs_caught]
    simp [List.countP_cons, Event.ends, Event.begins]
  | published | counted | failed => simp [Instruction.runs]

theorem due_of_uncounted {task : Nat} (uncounted : counted? thread.todo = none) : due task thread = false := by
  simp [due, awaited, uncounted]

private theorem credit_light {task : Nat} {own : Own} {i : Instruction} {rest : List Instruction} (light : i.frames = false) :
    credit task ⟨own, i :: rest⟩ = false := by
  cases i <;> first | rfl | cases light

/-- A run that has come to its end is about to be counted. -/
theorem Plays.credit {task : Nat} (plays : Plays records thread thread' events) (framed : Framed records thread.todo)
    (repeats : ¬ Plain records task) :
    (due task thread').toNat + (Pool.credit task thread).toNat =
      (due task thread).toNat + events.countP (Event.completes task) := by
  have quiet : ∀ other, [Event.began other].countP (Event.completes task) = 0 := by simp [Event.completes]
  cases plays with
  | aside light lights =>
    rw [due_of_uncounted (counted?_append lights (framed.next light)), due_of_uncounted (counted?_cons light),
      credit_light light]
    rfl
  | raised light =>
    rw [due_of_uncounted (counted?_unwind _), due_of_uncounted (counted?_cons light), credit_light light]
    rfl
  | ran | fired =>
    rw [due_of_uncounted (counted?_guarded _ _ _ _), due_of_uncounted (counted?_cons rfl), credit_light rfl, quiet]
    rfl
  | detached =>
    rw [due_of_uncounted (counted?_append (frames_acts _) rfl), due_of_uncounted (counted?_cons rfl), credit_light rfl, quiet]
    rfl
  | @ended own other rest =>
    have followed := framed.1
    have uncounted : due task ⟨own, .caught other :: rest⟩ = false := due_of_uncounted rfl
    have noCredit : Pool.credit task ⟨own, .caught other :: rest⟩ = false := rfl
    have completes : [Event.ended other own.outcome.toBool].countP (Event.completes task) =
        (own.outcome.toBool && other == task).toNat := by
      rw [List.countP_singleton, Event.completes]
      cases own.outcome.toBool && other == task <;> rfl
    have isDue : due task ⟨own, rest⟩ = (own.outcome.toBool && other == task) := by
      rw [due, awaited]
      cases isCounted : counted? rest with
      | none =>
        rw [isCounted] at followed
        have others : other ≠ task := fun same => repeats (same ▸ followed)
        rw [beq_eq_false_iff_ne.mpr others]
        rfl
      | some entry =>
        rw [isCounted] at followed
        have isTask : entry.task.task = other := followed
        rw [Option.any_some, isTask]
    rw [uncounted, noCredit, completes, isDue]
    exact Nat.add_comm _ _
  | published same =>
    have kept : ∀ own own' : Own, own'.outcome = own.outcome → ∀ shown rest,
        due task ⟨own', rest⟩ = due task ⟨own, .publish shown :: rest⟩ := by
      intro own own' same shown rest
      simp only [due, same, awaited, counted?]
    rw [kept _ _ same]
    rfl
  | @counted own entry rest ok =>
    have none : due task ⟨own, .recheck entry :: rest⟩ = false := due_of_uncounted rfl
    have all : Pool.credit task ⟨own, .count entry :: rest⟩ = due task ⟨own, .count entry :: rest⟩ := rfl
    rw [none, all]
    exact Nat.zero_add _
  | @failed own entry rest bad =>
    have none : due task ⟨own, rest⟩ = false := due_of_uncounted framed.1
    have all : Pool.credit task ⟨own, .count entry :: rest⟩ = due task ⟨own, .count entry :: rest⟩ := rfl
    rw [none, all]
    exact Nat.zero_add _

/-- Who begins to run a repeating task is about to do so. -/
theorem Plays.fires {task : Nat} (plays : Plays records thread thread' events) (repeats : ¬ Plain records task)
    (began : .began task ∈ events) : ∃ own entry rest, thread = ⟨own, .fire entry :: rest⟩ ∧ entry.task.task = task := by
  cases plays with
  | ran _ plain | detached plain =>
    cases List.mem_singleton.mp began
    exact absurd plain repeats
  | fired =>
    cases List.mem_singleton.mp began
    exact ⟨_, _, _, rfl, rfl⟩
  | ended => cases List.mem_singleton.mp began
  | aside | raised | published | counted | failed => cases began

/-- A panic of a repeating task is followed by the end of the task, -/
theorem Plays.panicked {task : Nat} (plays : Plays records thread thread' events) (framed : Framed records thread.todo)
    (repeats : ¬ Plain records task) (panicked : .ended task false ∈ events) :
    awaited task thread'.todo = true ∧ thread'.own.outcome.toBool = false := by
  cases plays with
  | @ended own other rest =>
    obtain ⟨rfl, failed⟩ := Event.ended.inj (List.mem_singleton.mp panicked)
    have followed := framed.1
    split at followed
    · next isCounted => exact ⟨by simp [awaited, isCounted, followed], failed.symm⟩
    · exact absurd followed repeats
  | ran | detached | fired => cases List.mem_singleton.mp panicked
  | aside | raised | published | counted | failed => cases panicked

/-- with nothing but the interrupt mark to be taken back before. -/
theorem Plays.dooms {task : Nat} (plays : Plays records thread thread' events) (next : awaited task thread.todo = true)
    (failed : thread.own.outcome.toBool = false) :
    awaited task thread'.todo = true ∧ thread'.own.outcome.toBool = false ∨
      ∃ own entry rest, thread = ⟨own, .count entry :: rest⟩ ∧ entry.task.task = task := by
  cases plays with
  | aside light | raised light =>
    rw [awaited, counted?_cons light] at next
    cases next
  | ran | detached | fired | ended => cases next
  | published same => exact .inl ⟨next, (congrArg Except.toBool same).trans failed⟩
  | counted ok =>
    rw [ok] at failed
    cases failed
  | failed => exact .inr ⟨_, _, _, rfl, by simpa [awaited, counted?] using next⟩

end Plays

/-! ## Records -/

/-- What becomes of the record of a task while so many runs of it are counted. -/
inductive Grows (counted : Nat) : Option Record → Option Record → Prop
  | absent : Grows counted none none
  | fresh {record kind} : Fresh record kind → Grows counted none (some record)
  | plain {record record'} : (∀ state, record ≠ .periodic state) → (∀ state, record' ≠ .periodic state) →
      Grows counted (some record) (some record')
  | periodic {state state'} : (state.done = true → state'.done = true) → state'.runs = state.runs + counted →
      Grows counted (some (.periodic state)) (some (.periodic state'))

private theorem Grows.same (record : Option Record) : Grows 0 record record := by
  cases record with
  | none => exact .absent
  | some record =>
    cases record with
    | periodic => exact .periodic id rfl
    | detached | oneOff => exact .plain nofun nofun

private theorem Grows.setCell {records : List Record} {task : Nat} {cell : TaskCell Int64}
    (found : records[task]? = some (.oneOff cell)) (cell' : TaskCell Int64) (other : Nat) :
    Grows 0 records[other]? (records.set task (.oneOff cell'))[other]? := by
  by_cases same : task = other
  · subst same
    rw [List.getElem?_set_self (List.getElem?_eq_some_iff.mp found).1, found]
    exact .plain nofun nofun
  · rw [List.getElem?_set_ne same]
    exact .same _

theorem Grows.append {records : List Record} {record : Record} {kind : Custody} (fresh : Fresh record kind) (task : Nat) :
    Grows 0 records[task]? (records ++ [record])[task]? := by
  rcases Nat.lt_trichotomy task records.length with old | rfl | later
  · rw [List.getElem?_append_left old]
    exact .same _
  · rw [List.getElem?_concat_length, List.getElem?_eq_none (Nat.le_refl _)]
    exact .fresh fresh
  · rw [List.getElem?_eq_none (by omega), List.getElem?_eq_none (by simp; omega)]
    exact .absent

/-- The marks of a repeating task change, or its runs are counted. -/
theorem Grows.modify {records : List Record} {task : Nat} {f : PeriodicState → PeriodicState} {counted : Nat → Nat}
    (lasting : ∀ state, state.done = true → (f state).done = true)
    (runs : ∀ state, (f state).runs = state.runs + counted task) (elsewhere : ∀ other, other ≠ task → counted other = 0) (other : Nat) :
    Grows (counted other) records[other]? (records.modify task (.mapPeriodic f))[other]? := by
  by_cases same : other = task
  · subst same
    rw [List.getElem?_modify_eq]
    cases records[other]? with
    | none => exact .absent
    | some record =>
      cases record with
      | periodic state => exact .periodic (lasting state) (runs state)
      | detached | oneOff => exact .plain nofun nofun
  · rw [List.getElem?_modify_ne _ _ (Ne.symm same), elsewhere other same]
    exact .same _

/-- A task that does not repeat will not do so. -/
theorem Grows.plain_mono {records records' : List Record} {counted : Nat → Nat}
    (grows : ∀ task, Grows (counted task) records[task]? records'[task]?) (task : Nat) (plain : Plain records task) :
    Plain records' task := by
  obtain ⟨record, found, noRepeat⟩ := plain
  have grown := grows task
  rw [found] at grown
  generalize isRecord : records'[task]? = record' at grown
  cases grown with
  | plain _ still => exact ⟨_, isRecord, still⟩
  | periodic => exact absurd rfl (noRepeat _)

/-! ## All instructions -/

section Perform

variable {world : World} {me : Nat} {s s' : State} {own own' : Own} {instruction : Instruction} {rest : List Instruction}
  {effect : Effect State Own Instruction Event}

/-- What a step does to scripts, to the way into the scheduled queue and to the records of tasks. -/
structure Acts (s : State) (own : Own) (instruction : Instruction) (rest : List Instruction)
    (effect : Effect State Own Instruction Event) : Prop where
  plays : Plays s.records ⟨own, instruction :: rest⟩ effect.thread (effect.events.filter Event.ofScript)
  starts : ∀ thread ∈ effect.started, ∀ i ∈ thread.todo, i.frames = false ∧ i.straight = true
  straight : instruction.straight = true → ∀ i ∈ effect.thread.todo, i ∈ rest ∨ i.straight = true
  funnel : ∀ entry ∈ effect.shared.funnel.queue, entry ∈ s.funnel.queue ∨ instruction = .funnel (.enqueue entry)
  grows : ∀ task, Grows (credit task ⟨own, instruction :: rest⟩).toNat s.records[task]? effect.shared.records[task]?
  lively : ∀ task state, .began task ∈ effect.events → s.records[task]? = some (.periodic state) → state.done = false

private theorem Acts.goOn {todo : List Instruction} {events : List Event}
    (performed : Pool.goOn s' own' rest todo events = some effect)
    (plays : Plays s.records ⟨own, instruction :: rest⟩ ⟨own', todo ++ rest⟩ (events.filter Event.ofScript))
    (straight : instruction.straight = true → ∀ i ∈ todo, i.straight = true) (funnel : s'.funnel = s.funnel)
    (grows : ∀ task, Grows (credit task ⟨own, instruction :: rest⟩).toNat s.records[task]? s'.records[task]?)
    (lively : ∀ task state, .began task ∈ events → s.records[task]? = some (.periodic state) → state.done = false) :
    Acts s own instruction rest effect := by
  cases performed
  refine ⟨plays, List.forall_mem_nil _, fun isStraight i member => ?_, fun entry member => .inl (funnel ▸ member), grows,
    lively⟩
  rcases List.mem_append.mp member with new | old
  · exact .inr (straight isStraight i new)
  · exact .inl old

/-- Nothing is done about scripts. -/
theorem Acts.aside {todo : List Instruction} {events : List Event}
    (performed : Pool.goOn s' own' rest todo events = some effect) (light : instruction.frames = false)
    (lights : ∀ i ∈ todo, i.frames = false ∧ (instruction.straight = true → i.straight = true))
    (quiet : ∀ event ∈ events, event.ofScript = false) (funnel : s'.funnel = s.funnel)
    (grows : ∀ task : Nat, Grows 0 s.records[task]? s'.records[task]?) : Acts s own instruction rest effect := by
  have noScript : events.filter Event.ofScript = [] := List.filter_eq_nil_iff.mpr (by simpa using quiet)
  refine .goOn performed ?_ (fun isStraight i member => (lights i member).2 isStraight) funnel ?_ ?_
  · rw [noScript]
    exact .aside light fun i member => (lights i member).1
  · intro task
    rw [credit_light light]
    exact grows task
  · intro task state member
    exact absurd (quiet _ member) Bool.noConfusion

/-- No record changes, either. -/
theorem Acts.quietly {todo : List Instruction} {events : List Event}
    (performed : Pool.goOn s own' rest todo events = some effect) (light : instruction.frames = false)
    (lights : ∀ i ∈ todo, i.frames = false ∧ (instruction.straight = true → i.straight = true))
    (quiet : ∀ event ∈ events, event.ofScript = false) : Acts s own instruction rest effect :=
  .aside performed light lights quiet rfl fun _ => .same _

/-- The thread goes on with what it had before. -/
theorem Acts.pass (performed : Pool.goOn s own' rest [] [] = some effect) (light : instruction.frames = false) :
    Acts s own instruction rest effect :=
  .quietly performed light (List.forall_mem_nil _) (List.forall_mem_nil _)

private theorem Acts.raise {message : String} (performed : Pool.raise s own rest message = some effect)
    (light : instruction.frames = false) : Acts s own instruction rest effect := by
  cases performed
  refine ⟨.raised light, List.forall_mem_nil _, fun _ i member => .inl ((List.dropWhile_suffix _).subset member),
    fun _ => .inl, ?_, by simp⟩
  intro task
  rw [credit_light light]
  exact .same _

private theorem modifyPeriodic_funnel (s : State) (task : Nat) (f : PeriodicState → PeriodicState) :
    (s.modifyPeriodic task f).funnel = s.funnel := congrArg Stock.funnel (modifyPeriodic_stock s task f)

theorem modifyPeriodic_records (s : State) (task : Nat) (f : PeriodicState → PeriodicState) :
    (s.modifyPeriodic task f).records = s.records.modify task (.mapPeriodic f) :=
  congrArg Stock.records (modifyPeriodic_stock s task f)

/-- The marks of a repeating task change. -/
theorem Acts.marks {task : Nat} {f : PeriodicState → PeriodicState} {todo : List Instruction} {events : List Event}
    (performed : Pool.goOn (s.modifyPeriodic task f) own' rest todo events = some effect) (light : instruction.frames = false)
    (lasting : ∀ state, state.done = true → (f state).done = true) (runs : ∀ state, (f state).runs = state.runs)
    (lights : ∀ i ∈ todo, i.frames = false ∧ (instruction.straight = true → i.straight = true))
    (quiet : ∀ event ∈ events, event.ofScript = false) : Acts s own instruction rest effect := by
  refine .aside performed light lights quiet (modifyPeriodic_funnel s task f) fun other => ?_
  rw [modifyPeriodic_records]
  exact @Grows.modify s.records task f (fun _ => 0) lasting runs (fun _ _ => rfl) other

private theorem acts_submit {now : Instant} {channel : Channel} {id : String} {scripts : List Script}
    (performed : performSubmit s own rest now channel id scripts = some effect) :
    Acts s own (.submit channel id scripts) rest effect := by
  cases channel with
  | detached => exact .aside performed rfl (by simp [frames, straight]) (List.forall_mem_nil _) rfl (Grows.append .detached)
  | immediate | dedicated | atInstant =>
    exact .aside performed rfl (by simp [frames, straight]) (List.forall_mem_nil _) rfl (Grows.append .oneOff)
  | after =>
    simp only [performSubmit] at performed
    split at performed
    · exact .aside performed rfl (by simp [frames, straight]) (List.forall_mem_nil _) rfl (Grows.append .oneOff)
    · exact .raise performed rfl
  | repeating =>
    simp only [performSubmit] at performed
    split at performed
    · exact .aside performed rfl (by simp [frames, straight]) (List.forall_mem_nil _) rfl (Grows.append .periodic)
    · exact .raise performed rfl

private theorem acts_action {action : Action} (performed : performAction s own rest world action = some effect) :
    Acts s own (.act action) rest effect := by
  cases action with
  | log | nameThread | reportInterrupt => exact .quietly performed rfl (List.forall_mem_nil _) (by simp [Event.ofScript])
  | result => exact .pass performed rfl
  | panic => exact .raise performed rfl
  | shutdown | submit => exact .quietly performed rfl (by simp [frames, straight]) (List.forall_mem_nil _)
  | cancel id mayInterrupt =>
    simp only [performAction] at performed
    split at performed
    · exact .quietly performed rfl (by simp [frames, straight]) (List.forall_mem_nil _)
    · exact .quietly performed rfl (List.forall_mem_nil _) (by simp [Event.ofScript])
  | gate =>
    simp only [performAction] at performed
    split at performed
    · exact .pass performed rfl
    · cases performed

private theorem straight_guarded (task : Nat) (script : Script) (previous : Option Nat) :
    ∀ i ∈ Instruction.guarded task script previous, i.straight = true := by
  intro i member
  simp only [Instruction.guarded, List.mem_append, List.mem_map, List.mem_cons, List.not_mem_nil, or_false] at member
  rcases member with (rfl | ⟨action, -, rfl⟩) | rfl | rfl <;> rfl

private theorem acts_run {job : Job} (plain : Plain s.records job.task) (performed : performRun s own rest job = some effect) :
    Acts s own (.run job) rest effect := by
  have lively : ∀ task state, .began task ∈ [Event.began job.task] → s.records[task]? = some (.periodic state) →
      state.done = false := by
    intro task state member found
    cases List.mem_singleton.mp member
    obtain ⟨record, isRecord, noRepeat⟩ := plain
    rw [isRecord] at found
    exact absurd (Option.some.inj found) (noRepeat state)
  unfold performRun at performed
  split at performed
  · next found =>
    split at performed
    · refine .goOn performed ?_ (fun _ i member => ?_) rfl (Grows.setCell found _) lively
      · rw [List.append_assoc]
        exact .ran own.interrupt plain
      · rcases List.mem_append.mp member with inside | last
        · exact straight_guarded _ _ _ i inside
        · rw [List.mem_singleton.mp last]
          rfl
    · exact .pass performed rfl
  · refine .goOn performed ?_ (fun _ i member => ?_) rfl (fun _ => .same _) lively
    · rw [List.append_assoc]
      exact .detached plain
    · simp only [List.mem_append, List.mem_map, List.mem_singleton] at member
      rcases member with ⟨action, -, rfl⟩ | rfl <;> rfl

private theorem acts_cancel {task : Nat} {mayInterrupt logged : Bool}
    (performed : performCancel s own rest task mayInterrupt logged = some effect) :
    Acts s own (.cancel task mayInterrupt logged) rest effect := by
  unfold performCancel at performed
  split at performed
  · next cell found =>
    have quiet : ∀ effective interrupts, ∀ event ∈ (if effective = true then [Event.cancelled task mayInterrupt] else []) ++
        (if interrupts = true then [Event.interrupted task] else []), event.ofScript = false := by
      intro effective interrupts
      cases effective <;> cases interrupts <;> simp [Event.ofScript]
    exact .aside performed rfl (by simp [frames, straight]) (quiet _ _) rfl (Grows.setCell found _)
  · split at performed
    · exact .quietly performed rfl (by simp [frames, straight]) (List.forall_mem_nil _)
    · refine .marks performed rfl (fun _ _ => rfl) (fun _ => rfl) ?_ (by simp [Event.ofScript])
      cases mayInterrupt <;> simp [frames, straight]
  · exact .quietly performed rfl (by simp [frames, straight]) (List.forall_mem_nil _)

private theorem acts_take {now : Instant} (performed : performTake s own rest now = some effect) :
    Acts s own .take rest effect := by
  unfold performTake at performed
  split at performed
  · exact .pass performed rfl
  · cases performed
  · split at performed <;>
      exact .aside performed rfl (by simp [frames, straight]) (by simp [Event.ofScript]) rfl fun _ => .same _

/-- Nothing is heard of scripts while threads go on in the immediate pool. -/
theorem quiet_immediate {step : Immediate.Step Job} (performed : perform world me s own (.immediate step) rest = some effect) :
    ∀ event ∈ effect.events, event.ofScript = false := by
  obtain ⟨⟨immediate, next⟩, -, rfl⟩ := Option.map_eq_some_iff.mp performed
  intro event member
  obtain ⟨one, -, told⟩ := List.mem_filterMap.mp member
  split at told
  · split at told <;> cases told
    rfl
  · cases told
    rfl
  · cases told
    rfl
  · cases told

private theorem acts_immediate {step : Immediate.Step Job}
    (performed : perform world me s own (.immediate step) rest = some effect) :
    Acts s own (.immediate step) rest effect := by
  have quiet := quiet_immediate performed
  obtain ⟨⟨immediate, next⟩, performs, rfl⟩ := Option.map_eq_some_iff.mp performed
  have follows : ∀ i ∈ next.flatMap Instruction.ofImmediate, i.frames = false ∧ i.straight = true := by
    intro i member
    obtain ⟨one, -, here⟩ := List.mem_flatMap.mp member
    cases one with
    | start => cases here
    | go | run | reject =>
      cases List.mem_singleton.mp here
      exact ⟨rfl, rfl⟩
  refine ⟨?_, fun thread member => ?_, fun _ i member => ?_, fun _ => .inl, fun task => ?_, fun task state member => ?_⟩
  · rw [List.filter_eq_nil_iff.mpr fun event member => Bool.eq_false_iff.mp (quiet event member)]
    exact .aside rfl fun i member => (follows i member).1
  · obtain ⟨one, -, starts⟩ := List.mem_filterMap.mp member
    cases one <;> simp at starts
    subst starts
    exact fun i here => List.mem_singleton.mp here ▸ ⟨rfl, rfl⟩
  · rcases List.mem_append.mp member with new | old
    · exact .inr (follows i new).2
    · exact .inl old
  · rw [credit_light rfl]
    exact .same _
  · exact Bool.noConfusion (quiet _ member)

/-- An entry that waits for the owner of the funnel was there before, or it is queued now. -/
theorem mem_queue_funnel {f : Serialized.Shared Entry} {step : Serialized.Step Entry} {entry : Entry}
    (member : entry ∈ (f.perform step).1.queue) : entry ∈ f.queue ∨ step = .enqueue entry := by
  cases step with
  | enqueue other =>
    rcases List.mem_append.mp member with old | new
    · exact .inl old
    · exact .inr (by rw [List.mem_singleton.mp new])
  | receive =>
    simp only [Serialized.Shared.perform] at member
    split at member
    · exact .inl member
    · next queued =>
      rw [queued]
      exact .inl (List.mem_cons_of_mem _ member)
  | release => exact .inl member
  | acquire | retry | inspect | regain =>
    simp only [Serialized.Shared.perform] at member
    split at member <;> exact .inl member

private theorem straight_funnel {f : Serialized.Shared Entry} {step : Serialized.Step Entry} {next : Serialized.Next Entry}
    (isStraight : Instruction.straight (.funnel step) = true) (follows : next ∈ (f.perform step).2) :
    Instruction.straight (.ofFunnel next) = true := by
  cases step with
  | enqueue => cases follows
  | release =>
    cases List.mem_singleton.mp follows
    rfl
  | acquire entry =>
    simp only [Serialized.Shared.perform] at follows
    split at follows
    · rcases List.mem_pair.mp follows with rfl | rfl
      · exact isStraight
      · rfl
    · rcases List.mem_pair.mp follows with rfl | rfl <;> rfl
  | receive =>
    simp only [Serialized.Shared.perform] at follows
    split at follows
    · cases List.mem_singleton.mp follows
      rfl
    · rcases List.mem_pair.mp follows with rfl | rfl <;> rfl
  | retry | inspect | regain =>
    simp only [Serialized.Shared.perform] at follows
    split at follows
    · cases follows
    · cases List.mem_singleton.mp follows
      rfl

private theorem acts_funnel {step : Serialized.Step Entry}
    (performed : perform world me s own (.funnel step) rest = some effect) :
    Acts s own (.funnel step) rest effect := by
  cases performed
  refine ⟨.aside rfl ?_, List.forall_mem_nil _, fun isStraight i member => ?_, fun entry member => ?_, fun task => ?_,
    by simp⟩
  · intro i member
    obtain ⟨next, -, rfl⟩ := List.mem_map.mp member
    cases next <;> rfl
  · rcases List.mem_append.mp member with new | old
    · obtain ⟨next, follows, rfl⟩ := List.mem_map.mp new
      exact .inr (straight_funnel isStraight follows)
    · exact .inl old
  · exact (mem_queue_funnel member).imp_right (congrArg Instruction.funnel)
  · rw [credit_light rfl]
    exact .same _

private theorem acts_fire {entry : Scheduled.Entry Periodic}
    (performed : perform world me s own (.fire entry) rest = some effect) :
    Acts s own (.fire entry) rest effect := by
  simp only [perform] at performed
  split at performed
  · exact .pass performed rfl
  · next lives =>
    refine .goOn performed ?_ (fun _ i member => ?_) rfl (fun _ => .same _) fun task state member found => ?_
    · rw [List.append_assoc]
      exact .fired _ own.interrupt
    · rcases List.mem_append.mp member with inside | last
      · exact straight_guarded _ _ _ i inside
      · rw [List.mem_singleton.mp last]
        rfl
    · cases List.mem_singleton.mp member
      simpa [State.periodic?, found] using lives

private theorem acts_count {entry : Scheduled.Entry Periodic}
    (performed : perform world me s own (.count entry) rest = some effect) :
    Acts s own (.count entry) rest effect := by
  have credits : ∀ task, credit task ⟨own, .count entry :: rest⟩ = (own.outcome.toBool && entry.task.task == task) :=
    fun _ => rfl
  simp only [perform] at performed
  split at performed
  · next failed =>
    have bad : own.outcome.toBool = false := by
      rw [failed]
      rfl
    refine .goOn performed (.failed bad) (fun _ => List.forall_mem_nil _) (modifyPeriodic_funnel _ _ _) (fun task => ?_) (by simp)
    rw [credits, bad, modifyPeriodic_records]
    exact @Grows.modify s.records entry.task.task ({ · with done := true }) (fun _ => 0) (fun _ _ => rfl) (fun _ => rfl)
      (fun _ _ => rfl) task
  · next ended =>
    have ok : own.outcome.toBool = true := by
      rw [ended]
      rfl
    refine .goOn performed (.counted ok) (by simp [straight]) (modifyPeriodic_funnel _ _ _) (fun task => ?_) (by simp)
    rw [credits, ok, modifyPeriodic_records]
    refine @Grows.modify s.records entry.task.task (fun p => { p with runs := p.runs + 1 })
      (fun task => (true && entry.task.task == task).toNat) (fun _ done => done) (fun _ => ?_) (fun other others => ?_) task
    · simp
    · simp [Ne.symm others]

/-- What the performance of any instruction does; one-off jobs are of tasks that do not repeat. -/
theorem acts_of_perform (plain : ∀ job, instruction = .run job → Plain s.records job.task)
    (performed : perform world me s own instruction rest = some effect) : Acts s own instruction rest effect := by
  cases instruction with
  | submit => exact acts_submit performed
  | draw deadline work funnelled =>
    refine .aside performed rfl (fun i member => ?_) (List.forall_mem_nil _) rfl fun _ => .same _
    cases List.mem_singleton.mp member
    cases funnelled with
    | false => exact ⟨rfl, fun _ => rfl⟩
    | true => cases work <;> simp [frames, straight]
  | funnel => exact acts_funnel performed
  | push entry =>
    simp only [perform] at performed
    split at performed
    · exact .aside performed rfl (List.forall_mem_nil _) (List.forall_mem_nil _) rfl fun _ => .same _
    · exact .quietly performed rfl (by simp [frames, straight]) (List.forall_mem_nil _)
  | abandon work =>
    cases work with
    | once => exact .quietly performed rfl (by simp [frames, straight]) (List.forall_mem_nil _)
    | periodic => exact .marks performed rfl (fun _ _ => rfl) (fun _ => rfl) (List.forall_mem_nil _) (List.forall_mem_nil _)
  | drop job =>
    simp only [perform] at performed
    split at performed
    · next isCell =>
      exact .aside performed rfl (List.forall_mem_nil _) (List.forall_mem_nil _) rfl
        (Grows.setCell (cell?_eq_some_iff.mp isCell) _)
    · exact .pass performed rfl
  | immediate => exact acts_immediate performed
  | run job => exact acts_run (plain job rfl) performed
  | act => exact acts_action performed
  | caught task => exact .goOn performed .ended (fun _ => List.forall_mem_nil _) rfl (fun _ => .same _) (by simp)
  | publish task => exact .goOn performed (.published rfl) (fun _ => List.forall_mem_nil _) rfl (fun _ => .same _) (by simp)
  | conclude task =>
    simp only [perform] at performed
    split at performed
    · exact .quietly performed rfl (by simp [frames, straight]) (List.forall_mem_nil _)
    · exact .pass performed rfl
  | store task result =>
    simp only [perform] at performed
    split at performed
    · next isCell =>
      exact .aside performed rfl (List.forall_mem_nil _) (List.forall_mem_nil _) rfl
        (Grows.setCell (cell?_eq_some_iff.mp isCell) _)
    · exact .pass performed rfl
  | take => exact acts_take performed
  | fire => exact acts_fire performed
  | count => exact acts_count performed
  | recheck entry =>
    simp only [perform] at performed
    split at performed
    · exact .pass performed rfl
    · exact .quietly performed rfl (by simp [frames, straight]) (List.forall_mem_nil _)
  | renew entry =>
    simp only [perform] at performed
    split at performed
    · exact .quietly performed rfl (by simp [frames, straight]) (by simp [Event.ofScript])
    · exact .raise performed rfl
  | cancel => exact acts_cancel performed
  | markCancelled | markInterrupt =>
    exact .marks performed rfl (fun _ done => done) (fun _ => rfl) (List.forall_mem_nil _) (by simp [Event.ofScript])
  | answer task effective logged =>
    exact .quietly performed rfl (List.forall_mem_nil _) (by cases logged <;> simp [Event.ofScript])
  | closeImmediate => exact .aside performed rfl (List.forall_mem_nil _) (List.forall_mem_nil _) rfl fun _ => .same _
  | closeScheduled =>
    refine .aside performed rfl (fun i member => ?_) (List.forall_mem_nil _) rfl fun _ => .same _
    simp only [List.mem_append, List.mem_map, List.mem_singleton] at member
    rcases member with ⟨entry, -, rfl⟩ | rfl <;> exact ⟨rfl, fun _ => rfl⟩
  | collect =>
    refine .aside performed rfl (fun i member => ?_) (List.forall_mem_nil _) rfl fun _ => .same _
    obtain ⟨thread, -, rfl⟩ := List.mem_map.mp member
    exact ⟨rfl, fun _ => rfl⟩
  | join thread =>
    simp only [perform] at performed
    split at performed
    · exact .pass performed rfl
    · cases performed
  | exit => exact .aside performed rfl (List.forall_mem_nil _) (List.forall_mem_nil _) rfl fun _ => .same _

end Perform

end PeerSubstrate.Executor.Pool
