import PeerSubstrate.Proofs.Executor.QueuedEntries

/-!
# The cadence of repeating tasks

Wherever the entry of a repeating task is, what has been done with the task so far says when it is due (`Stand`). So the entry
that is taken for the next execution has the deadline of its turn (`Fetched`), whatever the clock says and whoever else is
served meanwhile, and an entry that is queued again has the next one (`Rested`).
-/

namespace PeerSubstrate.Executor.Pool
open PeerSubstrate.Time PeerSubstrate.Concurrency
open Instruction (bears counts custody? freight? runs)
open Movement (starts)

/-- The notes of what becomes of entries, with the time of each. -/
def timed (world : World) (s : State) (own : Own) (i : Instruction) (events : List Event) : List (Instant × Movement) :=
  (movements world s own i events).map (world.now, ·)

/-- An entry of the task is taken or queued again, or its script begins or ends. -/
def Movement.concerns (task : Nat) : Movement → Bool
  | .took entry | .requeued entry => entry.task.number == task
  | .started other | .ended other => other == task
  | _ => false

open Movement (concerns)

/-- Nothing of this kind is noted of the task. -/
def Quiet (task : Nat) (log : List (Instant × Movement)) : Prop := ∀ note ∈ log, note.2.concerns task = false

/-- How often its script has begun. -/
def executions (task : Nat) (log : List (Instant × Movement)) : Nat := log.countP (·.2.starts task)

/-- The deadline of a task that was first due at `first`: as many periods later as it has been executed, or with the delay
after it was queued again. -/
def DueAt (task : Nat) (first : Instant) : Repeat → List (Instant × Movement) → Instant → Prop
  | .fixedRate period, log, deadline => deadline = first + executions task log * period
  | .fixedDelay delay, log, deadline => Quiet task log ∧ deadline = first ∨
      ∃ past now entry since, log = past ++ (now, .requeued entry) :: since ∧ Quiet task since ∧
        entry.task.number = task ∧ deadline = now + delay

/-- The last thing that was done with the task was to take its entry, which had the deadline of its turn and was due. -/
def Fetched (task : Nat) (first : Instant) (schedule : Repeat) (entry : Entry) (now : Instant)
    (log : List (Instant × Movement)) : Prop :=
  ∃ past since, log = past ++ (now, .took entry) :: since ∧ Quiet task since ∧ entry.task.number = task ∧
    DueAt task first schedule past entry.deadline ∧ entry.deadline ≤ now

/-- A period after this deadline is the one of the next turn. -/
def Spent (task : Nat) (first : Instant) : Repeat → List (Instant × Movement) → Instant → Prop
  | .fixedRate period, log, deadline => deadline + period = first + executions task log * period
  | .fixedDelay _, _, _ => True

/-- The last thing that was done with the task was to end its script. -/
def Rested (task : Nat) (log : List (Instant × Movement)) : Prop :=
  ∃ past now since, log = past ++ (now, .ended task) :: since ∧ Quiet task since

section Log

variable {task : Nat} {first now deadline : Instant} {schedule : Repeat} {entry : Entry}
  {log notes : List (Instant × Movement)}

theorem Quiet.append (quiet : Quiet task log) (more : Quiet task notes) : Quiet task (log ++ notes) :=
  List.forall_mem_append.mpr ⟨quiet, more⟩

private theorem concerns_of_starts {note : Movement} (begins : note.starts task = true) : note.concerns task = true := by
  cases note <;> first | exact begins | cases begins

private theorem executions_append (log notes : List (Instant × Movement)) :
    executions task (log ++ notes) = executions task log + executions task notes := List.countP_append

private theorem executions_quiet (quiet : Quiet task notes) : executions task notes = 0 :=
  List.countP_eq_zero.mpr fun note member begins => by
    cases (quiet note member).symm.trans (concerns_of_starts begins)

private theorem executions_onward (quiet : Quiet task notes) : executions task (log ++ notes) = executions task log := by
  rw [executions_append, executions_quiet quiet]
  rfl

/-- To take an entry is not to execute its task. -/
theorem executions_fetched {since : List (Instant × Movement)} (still : Quiet task since) :
    executions task (log ++ (now, .took entry) :: since) = executions task log := by
  have none : executions task ((now, Movement.took entry) :: since) = 0 := by
    rw [executions, List.countP_cons, if_neg (by simp [starts])]
    exact executions_quiet still
  rw [executions_append, none, Nat.add_zero]

private theorem DueAt.onward (due : DueAt task first schedule log deadline) (quiet : Quiet task notes) :
    DueAt task first schedule (log ++ notes) deadline := by
  cases schedule with
  | fixedRate period =>
    rw [DueAt, executions_onward quiet]
    exact due
  | fixedDelay delay =>
    rcases due with ⟨never, isFirst⟩ | ⟨past, now, entry, since, rfl, still, mine, later⟩
    · exact .inl ⟨never.append quiet, isFirst⟩
    · exact .inr ⟨past, now, entry, since ++ notes, by simp, still.append quiet, mine, later⟩

/-- Nothing has been done with the task yet. -/
theorem DueAt.start (quiet : Quiet task log) : DueAt task first schedule log first := by
  cases schedule with
  | fixedRate period => simp [DueAt, executions_quiet quiet]
  | fixedDelay delay => exact .inl ⟨quiet, rfl⟩

private theorem Quiet.precedes {enough : List (Instant × Movement) → Prop} {kind : Instant × Movement → Prop}
    (quiet : Quiet task log)
    (loud : ∀ note, kind note → note.2.concerns task = true) : Precedes enough kind log := by
  rintro past note later rfl isKind
  cases (quiet note (by simp)).symm.trans (loud note isKind)

private theorem Fetched.onward (fetched : Fetched task first schedule entry now log) (quiet : Quiet task notes) :
    Fetched task first schedule entry now (log ++ notes) := by
  obtain ⟨past, since, rfl, still, others⟩ := fetched
  exact ⟨past, since ++ notes, by simp, still.append quiet, others⟩

private theorem Spent.onward (spent : Spent task first schedule log deadline) (same : executions task notes = 0) :
    Spent task first schedule (log ++ notes) deadline := by
  cases schedule with
  | fixedRate period =>
    rw [Spent, executions_append, same, Nat.add_zero]
    exact spent
  | fixedDelay => trivial

private theorem Rested.onward (rested : Rested task log) (quiet : Quiet task notes) : Rested task (log ++ notes) := by
  obtain ⟨past, now, since, rfl, still⟩ := rested
  exact ⟨past, now, since ++ notes, by simp, still.append quiet⟩

/-- With the next execution, the deadline is that of a turn which is over. -/
theorem Fetched.spent (fetched : Fetched task first schedule entry now log) (time : Instant) :
    Spent task first schedule (log ++ [(time, .started task)]) entry.deadline := by
  obtain ⟨past, since, rfl, still, -, due, -⟩ := fetched
  cases schedule with
  | fixedRate period =>
    have once : executions task [(time, Movement.started task)] = 1 := by simp [executions, starts]
    rw [Spent, executions_append, executions_fetched still, once, show entry.deadline = _ from due, Int.natCast_succ,
      Int.add_mul, Int.one_mul, Int.add_assoc]
  | fixedDelay => trivial

end Log

/-! ## Where its entry is -/

/-- What is known of a repeating task from where its entry is. -/
def Stand (task : Nat) (first : Instant) (schedule : Repeat) (s : System State Own Instruction)
    (log : List (Instant × Movement)) : Freight → Prop
  | .drawing _ _ => False
  | .leaving _ => True
  | .coming entry | .queued entry =>
    entry.task.kind = (task, some schedule) ∧ DueAt task first schedule log entry.deadline
  | .held .fire entry => (Work.periodic entry.task).kind = (task, some schedule) ∧
    ∃ now, Fetched task first schedule ⟨entry.deadline, entry.seq, .periodic entry.task⟩ now log
  | .held .count entry => (Work.periodic entry.task).kind = (task, some schedule) ∧
    Spent task first schedule log entry.deadline ∧ (Rested task log ∨ 0 < s.todo.countP (runs task))
  | .held .recheck entry | .held .renew entry => (Work.periodic entry.task).kind = (task, some schedule) ∧
    Spent task first schedule log entry.deadline ∧ Rested task log

section Stand

variable {task : Nat} {first now : Instant} {schedule : Repeat} {s s' : System State Own Instruction} {state : State}
  {i : Instruction} {gone new : List Freight} {notes : List Movement} {log : List (Instant × Movement)} {x : Freight}
  {entry : Entry}

/-- Nothing is noted of the task meanwhile. -/
theorem Stand.onward {more : List (Instant × Movement)} (stand : Stand task first schedule s log x) (quiet : Quiet task more)
    (running : s.todo.countP (runs task) ≤ s'.todo.countP (runs task)) : Stand task first schedule s' (log ++ more) x := by
  cases x with
  | drawing => exact stand
  | leaving => trivial
  | coming | queued => exact ⟨stand.1, stand.2.onward quiet⟩
  | held leg entry =>
    cases leg with
    | fire => exact ⟨stand.1, stand.2.imp fun _ fetched => fetched.onward quiet⟩
    | count =>
      obtain ⟨kind, spent, rested | runs⟩ := stand
      · exact ⟨kind, spent.onward (executions_quiet quiet), .inl (rested.onward quiet)⟩
      · exact ⟨kind, spent.onward (executions_quiet quiet), .inr (Nat.lt_of_lt_of_le runs running)⟩
    | recheck | renew => exact ⟨stand.1, stand.2.1.onward (executions_quiet quiet), stand.2.2.onward quiet⟩

/-- What is noted concerns the tasks of the entries that change hands, and whose scripts begin or end. -/
theorem Hauls.quiet (hauls : Hauls now state i gone new notes) (apart : ∀ x ∈ gone, x.custody.2 ≠ task)
    (noRun : ∀ job, i = .run job → job.task ≠ task) (noEnd : i ≠ .caught task) : Quiet task (notes.map (now, ·)) := by
  refine List.forall_mem_map.mpr fun note member => ?_
  cases hauls with
  | ran =>
    cases List.mem_singleton.mp member
    exact beq_eq_false_iff_ne.mpr (noRun _ rfl)
  | ended =>
    cases List.mem_singleton.mp member
    exact beq_eq_false_iff_ne.mpr fun same => noEnd (same ▸ rfl)
  | took | fired =>
    cases List.mem_singleton.mp member
    exact beq_eq_false_iff_ne.mpr (apart _ (List.mem_singleton_self _))
  | @renewed entry =>
    cases List.mem_singleton.mp member
    exact beq_eq_false_iff_ne.mpr (apart (.held .renew entry) (List.mem_singleton_self _))
  | evicted =>
    obtain ⟨_, -, rfl⟩ := List.mem_map.mp member
    rfl
  | skipped =>
    rcases List.mem_cons.mp member with rfl | other
    · rfl
    · cases List.mem_singleton.mp other
      rfl
  | still | submitted | counted | rechecked => cases member
  | passed | drawn | pushed | refused | gaveUp | ceased =>
    cases List.mem_singleton.mp member
    rfl

/-- A number is drawn for a new entry, -/
theorem Hauls.numbered (hauls : Hauls now state i gone new notes) (isDrawn : .drawn entry ∈ notes) :
    gone = [.drawing entry.deadline entry.task] ∧ new = [.coming entry] ∧ notes = [.drawn entry] := by
  cases hauls with
  | drawn =>
    cases List.mem_singleton.mp isDrawn
    exact ⟨rfl, rfl, rfl⟩
  | _ => simp at isDrawn

/-- after a new task has been submitted. -/
theorem Hauls.submits {deadline : Instant} {work : Work} (hauls : Hauls now state i gone new notes)
    (isNew : .drawing deadline work ∈ new) : work.number = state.records.length ∧ notes = [] := by
  cases hauls with
  | submitted isNext =>
    cases List.mem_singleton.mp isNew
    exact ⟨isNext, rfl⟩
  | @took entry =>
    obtain ⟨deadline, seq, work⟩ := entry
    cases work <;> simp [Freight.ofTaken] at isNew
  | _ => simp at isNew

/-- When the task is due after this turn. -/
def nextTurn (deadline now : Instant) : Repeat → Instant
  | .fixedRate period => deadline + period
  | .fixedDelay delay => now + delay

private theorem next_eq {repeated : Periodic} {deadline later : Instant}
    (kind : (Work.periodic repeated).kind = (task, some schedule))
    (next : nextDeadline repeated.schedule deadline now = some later) : later = nextTurn deadline now schedule := by
  have same : repeated.schedule = schedule := Option.some.inj (congrArg Prod.snd kind)
  rw [same] at next
  cases schedule with
  | fixedRate | fixedDelay =>
    rw [nextDeadline, Instant.after?] at next
    split at next <;> cases next
    rfl

/-- What becomes of the entry in hand. -/
theorem Hauls.stands (hauls : Hauls now state i gone new notes) (old : task ≠ state.records.length)
    (stands : ∀ x ∈ gone, x.custody.2 = task → Stand task first schedule s log x)
    (counted : ∀ entry, i = .count entry → entry.task.task = task → s.todo.countP (runs task) = 0)
    (fired : ∀ entry, i = .fire entry → entry.task.task = task → .started task ∈ notes → 0 < s'.todo.countP (runs task)) :
    ∀ x ∈ new, x.custody.2 = task → Stand task first schedule s' (log ++ notes.map (now, ·)) x := by
  intro x member mine
  cases hauls with
  | submitted isNew =>
    cases List.mem_singleton.mp member
    exact absurd (mine.symm.trans isNew) old
  | drawn =>
    cases List.mem_singleton.mp member
    exact (stands _ (List.mem_singleton_self _) mine).elim
  | @pushed entry =>
    cases List.mem_singleton.mp member
    obtain ⟨kind, due⟩ := stands (.coming entry) (List.mem_singleton_self _) mine
    exact ⟨kind, due.onward (by simp [Quiet, concerns])⟩
  | refused =>
    cases List.mem_singleton.mp member
    trivial
  | @took entry _ _ _ inTime =>
    obtain ⟨deadline, seq, work⟩ := entry
    cases work with
    | once => cases member
    | periodic repeated =>
      cases List.mem_singleton.mp member
      obtain ⟨kind, due⟩ := stands _ (List.mem_singleton_self _) mine
      exact ⟨kind, now, log, [], rfl, List.forall_mem_nil _, mine, due, inTime⟩
  | evicted =>
    obtain ⟨_, -, rfl⟩ := List.mem_map.mp member
    trivial
  | @fired entry =>
    cases List.mem_singleton.mp member
    obtain ⟨kind, time, fetched⟩ := stands _ (List.mem_singleton_self _) mine
    have running := fired entry rfl mine (mine ▸ List.mem_singleton_self _)
    exact ⟨kind, mine ▸ fetched.spent now, .inr running⟩
  | @counted entry =>
    cases List.mem_singleton.mp member
    obtain ⟨kind, spent, rested | running⟩ := stands _ (List.mem_singleton_self _) mine
    · exact ⟨kind, spent.onward rfl, rested.onward (List.forall_mem_nil _)⟩
    · rw [counted entry rfl mine] at running
      cases running
  | rechecked =>
    cases List.mem_singleton.mp member
    obtain ⟨kind, spent, rested⟩ := stands _ (List.mem_singleton_self _) mine
    exact ⟨kind, spent.onward rfl, rested.onward (List.forall_mem_nil _)⟩
  | @renewed entry deadline next =>
    cases List.mem_singleton.mp member
    obtain ⟨kind, spent, -⟩ := stands _ (List.mem_singleton_self _) mine
    refine ⟨kind, ?_⟩
    have later := next_eq kind next
    cases schedule with
    | fixedRate => exact later.trans (spent.onward rfl)
    | fixedDelay => exact .inr ⟨log, now, _, [], rfl, List.forall_mem_nil _, mine, later⟩
  | _ => cases member

/-- Whatever is executed has been fetched, -/
theorem Hauls.fetched (hauls : Hauls now state i gone new notes)
    (stands : ∀ x ∈ gone, x.custody.2 = task → Stand task first schedule s log x) (noRun : ∀ job, i = .run job → job.task ≠ task)
    (begins : .started task ∈ notes) : notes = [.started task] ∧ ∃ entry time, Fetched task first schedule entry time log := by
  cases hauls with
  | ran =>
    cases List.mem_singleton.mp begins
    exact absurd rfl (noRun _ rfl)
  | @fired entry =>
    cases List.mem_singleton.mp begins
    obtain ⟨-, time, fetched⟩ := stands (.held .fire entry) (List.mem_singleton_self _) rfl
    exact ⟨rfl, _, time, fetched⟩
  | _ => simp at begins

/-- and whatever is queued again has been executed. -/
theorem Hauls.rested (hauls : Hauls now state i gone new notes)
    (stands : ∀ x ∈ gone, x.custody.2 = task → Stand task first schedule s log x) (mine : entry.task.number = task)
    (returns : .requeued entry ∈ notes) : notes = [.requeued entry] ∧ Rested task log ∧
      ∃ deadline, Spent task first schedule log deadline ∧ entry.deadline = nextTurn deadline now schedule := by
  cases hauls with
  | @renewed held deadline next =>
    cases List.mem_singleton.mp returns
    obtain ⟨kind, spent, rested⟩ := stands (.held .renew held) (List.mem_singleton_self _) mine
    exact ⟨rfl, rested, held.deadline, spent, next_eq kind next⟩
  | _ => simp at returns

end Stand

section Hands

variable {task : Nat} {s : System State Own Instruction} {x y : Freight} {gone others : List Freight}

private theorem custody_sublist (s : System State Own Instruction) :
    ((freight s).map Freight.custody).Sublist (holdings s) := by
  have inHand : ∀ todo : List Instruction, ((todo.filterMap freight?).map Freight.custody).Sublist (todo.filterMap custody?) := by
    intro todo
    induction todo with
    | nil => exact .slnil
    | cons i todo ih =>
      rw [filterMap_cons_toList, filterMap_cons_toList, List.map_append]
      refine List.Sublist.append ?_ ih
      cases holds : freight? i with
      | none => exact List.nil_sublist _
      | some x =>
        rw [(weighty_of_freight holds).2]
        exact .refl _
  have queues : (s.shared.freight.map Freight.custody) =
      s.shared.funnel.queue.map (·.task.custody) ++ s.shared.scheduled.queue.map (·.task.custody) := by
    rw [State.freight, List.map_append, List.map_map, List.map_map]
    rfl
  rw [freight, List.map_append, queues]
  refine List.Sublist.append ?_ (inHand s.todo)
  exact (List.sublist_append_right _ _).append_right _

private theorem Borne.freight_le (borne : Borne s) (task : Nat) : (freight s).countP (·.custody.2 == task) ≤ 1 := by
  have within := (custody_sublist s).countP_le (p := (·.2 == task))
  rw [List.countP_map] at within
  exact Nat.le_trans within (borne.holders_le_one task)

/-- A task is in one hand at a time. -/
theorem Borne.same (borne : Borne s) (one : x ∈ freight s) (other : y ∈ freight s) (isOne : x.custody.2 = task)
    (isOther : y.custody.2 = task) : x = y := by
  by_contra apart
  have two := two_le_countP (p := (·.custody.2 == task)) one other apart (beq_iff_eq.mpr isOne) (beq_iff_eq.mpr isOther)
  exact absurd (Nat.le_trans two (borne.freight_le task)) (by decide)

private theorem Borne.apart (borne : Borne s) (held : (freight s).Perm (gone ++ others)) (one : x ∈ gone) (other : y ∈ others)
    (isOne : x.custody.2 = task) : y.custody.2 ≠ task := by
  intro isOther
  have few := borne.freight_le task
  rw [held.countP_eq, List.countP_append] at few
  have here : 0 < gone.countP (·.custody.2 == task) := List.countP_pos_iff.mpr ⟨x, one, beq_iff_eq.mpr isOne⟩
  have there : 0 < others.countP (·.custody.2 == task) := List.countP_pos_iff.mpr ⟨y, other, beq_iff_eq.mpr isOther⟩
  omega

private theorem Borne.known (borne : Borne s) (member : x ∈ freight s) : s.shared.records[x.custody.2]? ≠ none := by
  have holds : x.custody ∈ holdings s := (custody_sublist s).subset (List.mem_map_of_mem member)
  have suits := borne.suits x.custody.2 x.custody.1 (List.count_pos_iff.mpr holds)
  intro none
  rw [none] at suits
  cases suits.known

private theorem Borne.repeating (borne : Borne s) (member : x ∈ freight s) (holds : x.custody = (.repeating, task)) :
    ∃ state, s.shared.records[task]? = some (.periodic state) := by
  have inHand : (Custody.repeating, task) ∈ holdings s := holds ▸ (custody_sublist s).subset (List.mem_map_of_mem member)
  exact (borne.suits task .repeating (List.count_pos_iff.mpr inHand)).repeating

/-- Where a script of a repeating task ends, its run is about to be counted. -/
theorem counting_of_caught (framed : ∀ thread ∈ s.threads, Framed s.shared.records thread.todo)
    (repeats : ¬ Plain s.shared.records task) (ends : .caught task ∈ s.todo) :
    ∃ entry, .held .count entry ∈ freight s ∧ entry.task.task = task := by
  have within := runs_le_counts framed repeats
  have one : 0 < s.todo.countP (runs task) := List.countP_pos_iff.mpr ⟨_, ends, beq_self_eq_true task⟩
  have more : 0 < s.todo.countP (counts task) :=
    Nat.lt_of_lt_of_le one (Nat.le_trans (Nat.le_add_right _ _) within)
  obtain ⟨i, member, isCount⟩ := List.countP_pos_iff.mp more
  cases i with
  | count entry =>
    exact ⟨entry, List.mem_append_right _ (List.mem_filterMap.mpr ⟨_, member, rfl⟩), beq_iff_eq.mp isCount⟩
  | _ => cases isCount

end Hands

/-! ## Steps -/

section Step

variable {config : Config} {world : World} {before after : List (Thread Own Instruction)} {own : Own}
  {instruction : Instruction} {rest : List Instruction} {effect : Effect State Own Instruction Event} {shared : State}
  {gone new others : List Freight} {log : List (Instant × Movement)} {task : Nat} {first : Instant} {schedule : Repeat}

/-- A script ends only if that is noted. -/
theorem runs_mono (borne : Borne ⟨shared, before ++ ⟨own, instruction :: rest⟩ :: after⟩)
    (performed : perform world before.length shared own instruction rest = some effect)
    (quiet : Quiet task (timed world shared own instruction effect.events)) :
    (System.todo ⟨shared, before ++ ⟨own, instruction :: rest⟩ :: after⟩).countP (runs task) ≤
      (System.todo ⟨effect.shared, before ++ effect.thread :: (after ++ effect.started)⟩).countP (runs task) := by
  have balance : (System.todo ⟨effect.shared, before ++ effect.thread :: (after ++ effect.started)⟩).countP (runs task) + _ =
      (System.todo ⟨shared, before ++ ⟨own, instruction :: rest⟩ :: after⟩).countP (runs task) + _ :=
    (borne.acts performed).balance task
  have none : effect.events.countP (Event.ends task) = 0 := by
    refine List.countP_eq_zero.mpr fun event member ends => ?_
    cases event with
    | ended other =>
      have noted : .ended other ∈ movements world shared own instruction effect.events :=
        List.mem_append_right _ (List.mem_filterMap.mpr ⟨_, member, rfl⟩)
      cases (quiet _ (List.mem_map_of_mem noted)).symm.trans ends
    | _ => cases ends
  omega

/-- A script that begins is going to end. -/
theorem runs_of_fire {entry : Scheduled.Entry Periodic}
    (performed : perform world before.length shared own (.fire entry) rest = some effect)
    (begins : .started entry.task.task ∈ movements world shared own (.fire entry) effect.events) :
    0 < (System.todo ⟨effect.shared, before ++ effect.thread :: (after ++ effect.started)⟩).countP (runs entry.task.task) := by
  have member : .caught entry.task.task ∈ effect.thread.todo := by
    simp only [perform] at performed
    split at performed
    · next ends =>
      cases performed
      simp [movements, Instruction.movements, ends] at begins
    · cases performed
      simp [Instruction.guarded]
  rw [countP_after]
  have here : 0 < effect.thread.todo.countP (runs entry.task.task) :=
    List.countP_pos_iff.mpr ⟨_, member, beq_self_eq_true entry.task.task⟩
  omega

private theorem runs_of_count {entry : Scheduled.Entry Periodic}
    (steady : Steady config ⟨shared, before ++ ⟨own, .count entry :: rest⟩ :: after⟩)
    (repeats : ¬ Plain shared.records entry.task.task) :
    (System.todo ⟨shared, before ++ ⟨own, .count entry :: rest⟩ :: after⟩).countP (runs entry.task.task) = 0 := by
  refine (none_runs_of_awaited steady.framed repeats ?_ mem_middle (beq_self_eq_true entry.task.task)).2
  have counted : ∀ i, counts entry.task.task i = true → bears entry.task.task i = true := by
    intro i isCount
    cases i with
    | count other => exact isCount
    | _ => cases isCount
  have bearing := holders_ge entry.task.task ⟨shared, before ++ ⟨own, .count entry :: rest⟩ :: after⟩
  have few := steady.borne.holders_le_one entry.task.task
  refine Nat.le_trans (List.countP_mono_left fun i _ => counted i) (Nat.le_trans (Nat.le_of_add_left_le bearing) few)

/-- Nothing of a repeating task is run as a job. -/
theorem noRun_of_repeating (borne : Borne ⟨shared, before ++ ⟨own, instruction :: rest⟩ :: after⟩)
    (repeats : ¬ Plain shared.records task) : ∀ job, instruction = .run job → job.task ≠ task := by
  rintro job rfl rfl
  exact repeats (borne.runs_plain todo_mem)

/-- What is known of a task is still known after a step. -/
theorem stands_of_perform (steady : Steady config ⟨shared, before ++ ⟨own, instruction :: rest⟩ :: after⟩)
    (performed : perform world before.length shared own instruction rest = some effect)
    (hauls : Hauls world.now shared instruction gone new (movements world shared own instruction effect.events))
    (held : (freight ⟨shared, before ++ ⟨own, instruction :: rest⟩ :: after⟩).Perm (gone ++ others))
    (held' : (freight ⟨effect.shared, before ++ effect.thread :: (after ++ effect.started)⟩).Perm (new ++ others))
    {state : PeriodicState} (found : shared.records[task]? = some (.periodic state))
    (stands : ∀ x ∈ freight ⟨shared, before ++ ⟨own, instruction :: rest⟩ :: after⟩, x.custody.2 = task →
      Stand task first schedule ⟨shared, before ++ ⟨own, instruction :: rest⟩ :: after⟩ log x) :
    ∀ x ∈ freight ⟨effect.shared, before ++ effect.thread :: (after ++ effect.started)⟩, x.custody.2 = task →
      Stand task first schedule ⟨effect.shared, before ++ effect.thread :: (after ++ effect.started)⟩
        (log ++ timed world shared own instruction effect.events) x := by
  have borne := steady.borne
  have repeats : ¬ Plain shared.records task := not_plain found
  intro x member mine
  rcases List.mem_append.mp (held'.subset member) with isNew | other
  · refine hauls.stands ?_ (fun y isGone => stands y (held.symm.subset (List.mem_append_left _ isGone))) ?_ ?_ x isNew mine
    · rintro rfl
      simp at found
    · rintro entry rfl rfl
      exact runs_of_count steady repeats
    · rintro entry rfl rfl begins
      exact runs_of_fire performed begins
  · have inHand := held.symm.subset (List.mem_append_right gone other)
    have stand := stands x inHand mine
    by_cases ends : instruction = .caught task
    · subst ends
      obtain ⟨entry, counting, isTask⟩ := counting_of_caught steady.framed repeats todo_mem
      obtain rfl := borne.same inHand counting mine isTask
      cases performed
      exact ⟨stand.1, stand.2.1.onward rfl, .inl ⟨log, world.now, [], rfl, List.forall_mem_nil _⟩⟩
    · have apart : ∀ y ∈ gone, y.custody.2 ≠ task := fun y isGone isTask => borne.apart held isGone other isTask mine
      have quiet := hauls.quiet apart (noRun_of_repeating borne repeats) ends
      exact stand.onward quiet (runs_mono borne performed quiet)

/-- A repeating task stays one. -/
theorem repeats_of_perform (borne : Borne ⟨shared, before ++ ⟨own, instruction :: rest⟩ :: after⟩)
    (performed : perform world before.length shared own instruction rest = some effect)
    (repeats : ∃ state, shared.records[task]? = some (.periodic state)) :
    ∃ state, effect.shared.records[task]? = some (.periodic state) := by
  obtain ⟨state, found⟩ := repeats
  have grows := (borne.acts performed).grows task
  rw [found] at grows
  generalize effect.shared.records[task]? = record at grows
  cases grows with
  | plain repeats => exact absurd rfl (repeats state)
  | @periodic _ state' => exact ⟨state', rfl⟩

/-- The task has not been submitted, or no number has been drawn for its entry. -/
def Unqueued (task : Nat) (s : System State Own Instruction) : Prop :=
  s.shared.records[task]? = none ∨
    ∃ deadline repeated, .drawing deadline (.periodic repeated) ∈ freight s ∧ repeated.task = task

private theorem unqueued_of_perform (steady : Steady config ⟨shared, before ++ ⟨own, instruction :: rest⟩ :: after⟩)
    (performed : perform world before.length shared own instruction rest = some effect)
    (hauls : Hauls world.now shared instruction gone new (movements world shared own instruction effect.events))
    (held : (freight ⟨shared, before ++ ⟨own, instruction :: rest⟩ :: after⟩).Perm (gone ++ others))
    (held' : (freight ⟨effect.shared, before ++ effect.thread :: (after ++ effect.started)⟩).Perm (new ++ others))
    (unqueued : Unqueued task ⟨effect.shared, before ++ effect.thread :: (after ++ effect.started)⟩) :
    Unqueued task ⟨shared, before ++ ⟨own, instruction :: rest⟩ :: after⟩ ∧
      Quiet task (timed world shared own instruction effect.events) := by
  have borne := steady.borne
  rcases unqueued with unknown | ⟨deadline, repeated, member, mine⟩
  · have never : shared.records[task]? = none := by
      have grows := (borne.acts performed).grows task
      rw [show effect.shared.records[task]? = none from unknown] at grows
      generalize shared.records[task]? = record at grows ⊢
      cases grows
      rfl
    have repeats : ¬ Plain shared.records task := by
      rintro ⟨record, found, -⟩
      cases never.symm.trans found
    refine ⟨.inl never, hauls.quiet (fun y isGone same => ?_) (noRun_of_repeating borne repeats) ?_⟩
    · exact borne.known (held.symm.subset (List.mem_append_left _ isGone)) (same ▸ never)
    · rintro rfl
      obtain ⟨entry, counting, isTask⟩ := counting_of_caught steady.framed repeats todo_mem
      exact borne.known counting (isTask ▸ never)
  · rcases List.mem_append.mp (held'.subset member) with isNew | other
    · obtain ⟨isNext, none⟩ := hauls.submits isNew
      refine ⟨.inl ?_, ?_⟩
      · have next : task = shared.records.length := mine.symm.trans isNext
        exact next ▸ List.getElem?_eq_none (Nat.le_refl _)
      · rw [timed, none]
        exact List.forall_mem_nil _
    · have inHand := held.symm.subset (List.mem_append_right gone other)
      obtain ⟨state, found⟩ := borne.repeating inHand (congrArg _ mine)
      refine ⟨.inr ⟨deadline, repeated, inHand, mine⟩, hauls.quiet ?_ ?_ ?_⟩
      · exact fun y isGone isTask => borne.apart held isGone other isTask mine
      · exact noRun_of_repeating borne (not_plain found)
      · rintro rfl
        obtain ⟨entry, counting, isTask⟩ := counting_of_caught steady.framed (not_plain found) todo_mem
        cases borne.same inHand counting mine isTask

/-- What is known of a repeating task that was first due at `first`. -/
structure Cadence (task : Nat) (first : Instant) (schedule : Repeat) (s : System State Own Instruction)
    (log : List (Instant × Movement)) : Prop where
  repeats : ∃ state, s.shared.records[task]? = some (.periodic state)
  stands : ∀ x ∈ freight s, x.custody.2 = task → Stand task first schedule s log x
  begins : ∀ time, Precedes (fun past => ∃ entry now, Fetched task first schedule entry now past)
    (· = (time, .started task)) log
  returns : ∀ time entry, entry.task.number = task → Precedes (fun past => Rested task past ∧
      ∃ deadline, Spent task first schedule past deadline ∧ entry.deadline = nextTurn deadline time schedule)
    (· = (time, .requeued entry)) log

theorem Cadence.step (cadence : Cadence task first schedule ⟨shared, before ++ ⟨own, instruction :: rest⟩ :: after⟩ log)
    (steady : Steady config ⟨shared, before ++ ⟨own, instruction :: rest⟩ :: after⟩)
    (performed : perform world before.length shared own instruction rest = some effect)
    (hauls : Hauls world.now shared instruction gone new (movements world shared own instruction effect.events))
    (held : (freight ⟨shared, before ++ ⟨own, instruction :: rest⟩ :: after⟩).Perm (gone ++ others))
    (held' : (freight ⟨effect.shared, before ++ effect.thread :: (after ++ effect.started)⟩).Perm (new ++ others)) :
    Cadence task first schedule ⟨effect.shared, before ++ effect.thread :: (after ++ effect.started)⟩
      (log ++ timed world shared own instruction effect.events) := by
  obtain ⟨⟨state, found⟩, stands, begins, returns⟩ := cadence
  have inHand : ∀ x ∈ gone, x.custody.2 = task → Stand task first schedule _ log x :=
    fun x isGone => stands x (held.symm.subset (List.mem_append_left _ isGone))
  constructor
  case repeats => exact repeats_of_perform steady.borne performed ⟨state, found⟩
  case stands => exact stands_of_perform steady performed hauls held held' found stands
  case begins =>
    intro time
    refine (begins time).append_single ?_
    rintro _ member rfl
    obtain ⟨note, noted, same⟩ := List.mem_map.mp member
    obtain ⟨rfl, rfl⟩ := Prod.mk.inj same
    obtain ⟨alone, fetched⟩ := hauls.fetched inHand (noRun_of_repeating steady.borne (not_plain found)) noted
    exact ⟨congrArg (List.map _) alone, fetched⟩
  case returns =>
    intro time entry mine
    refine (returns time entry mine).append_single ?_
    rintro _ member rfl
    obtain ⟨note, noted, same⟩ := List.mem_map.mp member
    obtain ⟨rfl, rfl⟩ := Prod.mk.inj same
    obtain ⟨alone, rested⟩ := hauls.rested inHand mine noted
    exact ⟨congrArg (List.map _) alone, rested⟩

/-- The first number is drawn for the entry of the task. -/
theorem Cadence.start {seq : Nat} {scripts : List Script} (quiet : Quiet task log)
    (steady : Steady config ⟨shared, before ++ ⟨own, instruction :: rest⟩ :: after⟩)
    (performed : perform world before.length shared own instruction rest = some effect)
    (hauls : Hauls world.now shared instruction gone new (movements world shared own instruction effect.events))
    (held : (freight ⟨shared, before ++ ⟨own, instruction :: rest⟩ :: after⟩).Perm (gone ++ others))
    (held' : (freight ⟨effect.shared, before ++ effect.thread :: (after ++ effect.started)⟩).Perm (new ++ others))
    (submits : .drawn ⟨first, seq, .periodic ⟨task, schedule, scripts⟩⟩ ∈ movements world shared own instruction effect.events) :
    Cadence task first schedule ⟨effect.shared, before ++ effect.thread :: (after ++ effect.started)⟩
      (log ++ timed world shared own instruction effect.events) := by
  obtain ⟨rfl, rfl, alone⟩ := hauls.numbered submits
  have still : Quiet task (log ++ timed world shared own instruction effect.events) := by
    rw [timed, alone]
    exact quiet.append (List.forall_mem_singleton.mpr rfl)
  have inHand := held.symm.subset (List.mem_append_left others (List.mem_singleton_self _))
  constructor
  case repeats => exact repeats_of_perform steady.borne performed (steady.borne.repeating inHand rfl)
  case stands =>
    intro x member mine
    rcases List.mem_append.mp (held'.subset member) with isNew | other
    · cases List.mem_singleton.mp isNew
      exact ⟨rfl, .start still⟩
    · exact absurd mine (steady.borne.apart held (List.mem_singleton_self _) other rfl)
  case begins => exact fun time => still.precedes fun _ same => same ▸ beq_self_eq_true task
  case returns => exact fun time entry mine => still.precedes fun _ same => same ▸ beq_iff_eq.mpr mine

end Step

/-! ## Runs -/

section Run

variable {config : Config} {calls : List (List Call)} {s : System State Own Instruction} {log : List (Instant × Movement)}
  {now first : Instant} {seq task : Nat} {schedule : Repeat} {scripts : List Script}

theorem Cadence.run (run : (machine.watch timed).Run (withClients config calls) s log)
    (submitted : (now, .drawn ⟨first, seq, .periodic ⟨task, schedule, scripts⟩⟩) ∈ log) : Cadence task first schedule s log := by
  refine (Steady.later (fun s log => (Unqueued task s → Quiet task log) ∧
    ((now, .drawn ⟨first, seq, .periodic ⟨task, schedule, scripts⟩⟩) ∈ log → Cadence task first schedule s log))
    .start run ⟨fun _ => List.forall_mem_nil _, fun member => absurd member List.not_mem_nil⟩ ?_).2 submitted
  intro before own instruction rest after effect world shared log gone new others steady ⟨unqueued, cadence⟩ performed hauls
    held held'
  constructor
  · intro still
    obtain ⟨earlier, quiet⟩ := unqueued_of_perform steady performed hauls held held' still
    exact (unqueued earlier).append quiet
  · intro member
    rcases List.mem_append.mp member with past | here
    · exact (cadence past).step steady performed hauls held held'
    · obtain ⟨note, submits, same⟩ := List.mem_map.mp here
      obtain ⟨-, rfl⟩ := Prod.mk.inj same
      obtain ⟨rfl, -, -⟩ := hauls.numbered submits
      have drawing := held.symm.subset (List.mem_append_left others (List.mem_singleton_self _))
      exact .start (unqueued (.inr ⟨_, _, drawing, rfl⟩)) steady performed hauls held held' submits

/-- Notes are taken one after another. -/
theorem le_of_forward {past later : List (Instant × Movement)} {note : Instant × Movement}
    (forward : ((past ++ note :: later).map Prod.fst).Pairwise (· ≤ ·)) : ∀ earlier ∈ past, earlier.1 ≤ note.1 := by
  intro earlier member
  rw [List.map_append] at forward
  exact (List.pairwise_append.mp forward).2.2 _ (List.mem_map_of_mem member) _ (List.mem_map_of_mem List.mem_cons_self)

/-- At a fixed rate, the deadline is as many periods after the first one as the task has been executed. -/
theorem Fetched.deadline_eq {entry : Entry} {period : Duration} (fetched : Fetched task first (.fixedRate period) entry now log) :
    entry.deadline = first + executions task log * period := by
  obtain ⟨past, since, rfl, still, -, due, -⟩ := fetched
  rw [executions_fetched still]
  exact due

/-- With a fixed delay, all that has been executed has ended by so much before the deadline. -/
theorem Fetched.rests {entry : Entry} {delay : Duration} (fetched : Fetched task first (.fixedDelay delay) entry now log)
    (forward : (log.map Prod.fst).Pairwise (· ≤ ·)) {finish : Instant} (ended : (finish, .ended task) ∈ log) :
    finish + delay ≤ entry.deadline := by
  obtain ⟨past, since, rfl, still, -, due, -⟩ := fetched
  have loud : concerns task (.ended task) = true := beq_self_eq_true task
  rcases List.mem_append.mp ended with before | later
  · rcases due with ⟨quiet, -⟩ | ⟨past, time, again, between, rfl, quiet, -, isLater⟩
    · cases (quiet _ before).symm.trans loud
    · rcases List.mem_append.mp before with before | later
      · rw [List.append_assoc] at forward
        have earlier := le_of_forward forward _ before
        rw [isLater]
        exact Int.add_le_add_right earlier _
      · rcases List.mem_cons.mp later with same | later
        · cases same
        · cases (quiet _ later).symm.trans loud
  · rcases List.mem_cons.mp later with same | later
    · cases same
    · cases (still _ later).symm.trans loud

/-- A repeating task keeps its cadence, however long its runs take, whatever the pool is busy with and however the clock
advances. At a fixed rate, each execution comes from an entry whose deadline is as many periods after the first one as the task
has been executed before, and does not begin before it; and after each execution the entry is queued again for the next such
deadline. With a fixed delay, the entry is queued again for the instant at which the run was over plus the delay, and each
execution comes from the entry that was queued last, so it begins by the delay at least after every earlier one has ended. -/
theorem periods_kept (run : (machine.watch timed).Run (withClients config calls) s log)
    (forward : (log.map Prod.fst).Pairwise (· ≤ ·))
    (submitted : (now, .drawn ⟨first, seq, .periodic ⟨task, schedule, scripts⟩⟩) ∈ log) :
    (∀ time : Instant, Precedes (fun past => ∃ entry now, Fetched task first schedule entry now past ∧ now ≤ time)
      (· = (time, .started task)) log) ∧
    (∀ period, schedule = .fixedRate period →
      (∀ time : Instant, Precedes (fun past => ∃ entry now, Fetched task first schedule entry now past ∧
          entry.deadline = first + executions task past * period ∧ entry.deadline ≤ time) (· = (time, .started task)) log) ∧
      ∀ (time : Instant) (entry : Entry), entry.task.number = task →
        Precedes (fun past => Rested task past ∧ entry.deadline = first + executions task past * period)
          (· = (time, .requeued entry)) log) ∧
    ∀ delay, schedule = .fixedDelay delay →
      (∀ (time : Instant) (entry : Entry), entry.task.number = task →
        Precedes (fun past => Rested task past ∧ entry.deadline = time + delay) (· = (time, .requeued entry)) log) ∧
      ∀ time : Instant, Precedes (fun past => ∀ finish : Instant, (finish, .ended task) ∈ past → finish + delay ≤ time)
        (· = (time, .started task)) log := by
  have cadence := Cadence.run run submitted
  have begins : ∀ time, Precedes (fun past => ∃ entry now, Fetched task first schedule entry now past ∧ now ≤ time)
      (· = (time, .started task)) log := by
    rintro time past _ later rfl rfl
    obtain ⟨entry, now, fetched⟩ := cadence.begins time past _ later rfl rfl
    obtain ⟨earlier, since, rfl, -⟩ := id fetched
    exact ⟨entry, now, fetched, le_of_forward forward (now, .took entry) (by simp)⟩
  refine ⟨begins, ?_, ?_⟩
  · rintro period rfl
    constructor
    · intro time past note later same isStart
      obtain ⟨entry, now, fetched, inTime⟩ := begins time past note later same isStart
      obtain ⟨-, -, -, -, -, -, due⟩ := id fetched
      exact ⟨entry, now, fetched, fetched.deadline_eq, Int.le_trans due inTime⟩
    · intro time entry mine past note later same returns
      obtain ⟨rested, deadline, spent, next⟩ := cadence.returns time entry mine past note later same returns
      exact ⟨rested, next.trans spent⟩
  · rintro delay rfl
    constructor
    · intro time entry mine past note later same returns
      obtain ⟨rested, _, -, next⟩ := cadence.returns time entry mine past note later same returns
      exact ⟨rested, next⟩
    · intro time past note later same isStart finish ended
      obtain ⟨entry, now, fetched, inTime⟩ := begins time past note later same isStart
      obtain ⟨-, -, -, -, -, -, due⟩ := id fetched
      subst same
      have soFar : (past.map Prod.fst).Pairwise (· ≤ ·) :=
        forward.sublist ((List.sublist_append_left past _).map _)
      exact Int.le_trans (fetched.rests soFar ended) (Int.le_trans due inTime)

end Run

/-- A client submits a task that is due every 50 nanoseconds from 2 on, and one that is due first at 1 and then 5 nanoseconds
after each run. There is one worker. -/
def periodicClient : System State Own Instruction :=
  withClients ⟨1, 1, 1, 0, "pool"⟩ [[.submit (.repeating 2 (.fixedRate 50)) "rate" [[]],
    .submit (.repeating 1 (.fixedDelay 5)) "delay" [[]]]]

/-- The worker comes late, runs the second task, and the first one twice; it takes it for the third time, -/
def comesLate : List (World × Nat) :=
  (List.replicate 6 2).map (⟨0, false, []⟩, ·) ++ (List.replicate 28 1).map (⟨110, false, []⟩, ·)

/-- and when it has run it, it takes the second task again. -/
def goesOnLater : List (World × Nat) := (List.replicate 7 1).map (⟨110, false, []⟩, ·) ++ [(⟨120, false, []⟩, 1)]

/-- A number is drawn for the entry of such a task. -/
def Movement.submits (task : Nat) (first : Instant) (schedule : Repeat) : Movement → Bool
  | .drawn entry => entry.deadline == first && entry.task.kind == (task, some schedule)
  | _ => false

private theorem drawn_of_submits {task : Nat} {first time : Instant} {schedule : Repeat} {log : List (Instant × Movement)}
    (submits : log.any (fun note => note.1 == time && note.2.submits task first schedule) = true) :
    ∃ seq scripts, (time, .drawn ⟨first, seq, .periodic ⟨task, schedule, scripts⟩⟩) ∈ log := by
  obtain ⟨⟨at_, note⟩, member, same⟩ := List.any_eq_true.mp submits
  obtain ⟨isTime, isDrawn⟩ := Bool.and_eq_true_iff.mp same
  cases note with
  | drawn entry =>
    obtain ⟨deadline, seq, work⟩ := entry
    obtain ⟨isFirst, kind⟩ := Bool.and_eq_true_iff.mp isDrawn
    cases work with
    | once => cases (congrArg Prod.snd (beq_iff_eq.mp kind) : none = some schedule)
    | periodic repeated =>
      obtain ⟨_, _, scripts⟩ := repeated
      cases beq_iff_eq.mp kind
      cases beq_iff_eq.mp isTime
      cases beq_iff_eq.mp isFirst
      exact ⟨seq, scripts, member⟩
  | _ => cases isDrawn

/-- The third execution of the first task comes from the entry for 102, though it begins at 110 right after two others; the
second execution of the second task begins by 5 at least after the first one has ended. -/
theorem late_periods_caught_up :
    ∃ s past more, (machine.watch timed).Run periodicClient s
        (past ++ [(110, .started 0)] ++ more ++ [(120, .started 1)]) ∧
      executions 0 past = 2 ∧ executions 1 past = 1 ∧
      (∃ entry now, Fetched 0 2 (.fixedRate 50) entry now past ∧ entry.deadline = 102 ∧ entry.deadline ≤ 110) ∧
      ∀ finish, (finish, .ended 1) ∈ past → finish + 5 ≤ (120 : Instant) := by
  have found : ((machine.watch timed).follow comesLate (periodicClient, [])).bind (fun (s, past) =>
      ((machine.watch timed).step ⟨110, false, []⟩ 1 s).bind fun (t, begins) =>
        ((machine.watch timed).follow goesOnLater (t, [])).bind fun (u, more) =>
          ((machine.watch timed).step ⟨120, false, []⟩ 1 u).map fun (_, again) =>
            (past.any (fun note => note.1 == 0 && note.2.submits 0 2 (.fixedRate 50)),
              past.any (fun note => note.1 == 0 && note.2.submits 1 1 (.fixedDelay 5)), executions 0 past, executions 1 past,
              begins.map fun note => (note.1, note.2.starts 0), again.map fun note => (note.1, note.2.starts 1),
              (past ++ begins ++ more ++ again).map Prod.fst)) =
      some (true, true, 2, 1, [(110, true)], [(120, true)], List.replicate 4 0 ++ List.replicate 20 110 ++ [120, 120]) := rfl
  obtain ⟨⟨s, past⟩, coming, found⟩ := Option.bind_eq_some_iff.mp found
  obtain ⟨⟨t, begins⟩, third, found⟩ := Option.bind_eq_some_iff.mp found
  obtain ⟨⟨u, more⟩, going, found⟩ := Option.bind_eq_some_iff.mp found
  obtain ⟨⟨v, again⟩, second, found⟩ := Option.map_eq_some_iff.mp found
  simp only [Prod.mk.injEq] at found
  obtain ⟨rate, delay, twice, once, isThird, isSecond, times⟩ := found
  obtain ⟨⟨_, note⟩, rfl, same⟩ := List.map_eq_singleton_iff.mp isThird
  obtain ⟨rfl, starts⟩ := Prod.mk.inj same
  obtain rfl := eq_of_starts starts
  obtain ⟨⟨_, note⟩, rfl, same⟩ := List.map_eq_singleton_iff.mp isSecond
  obtain ⟨rfl, starts⟩ := Prod.mk.inj same
  obtain rfl := eq_of_starts starts
  have run := (((Machine.run_of_follow .start coming).step _ _ third).trans (Machine.run_of_follow .start going)).step _ _ second
  have forward : ((past ++ [(110, Movement.started 0)] ++ more ++ [(120, Movement.started 1)]).map Prod.fst).Pairwise (· ≤ ·) := by
    rw [times]
    decide
  have among : ∀ note ∈ past, note ∈ past ++ [(110, .started 0)] ++ more ++ [(120, .started 1)] := by
    intro note member
    simp [member]
  obtain ⟨_, _, drawn⟩ := drawn_of_submits rate
  obtain ⟨_, _, drawn'⟩ := drawn_of_submits delay
  refine ⟨v, past, more, run, twice, once, ?_, ?_⟩
  · obtain ⟨-, atRate, -⟩ := periods_kept run forward (among _ drawn)
    obtain ⟨entry, now, fetched, due, inTime⟩ := (atRate 50 rfl).1 110 past _ (more ++ [(120, .started 1)]) (by simp) rfl
    rw [twice] at due
    exact ⟨entry, now, fetched, due, inTime⟩
  · intro finish ended
    obtain ⟨-, -, atDelay⟩ := periods_kept run forward (among _ drawn')
    exact (atDelay 5 rfl).2 120 _ _ [] rfl rfl finish (by simp [ended])

end PeerSubstrate.Executor.Pool
