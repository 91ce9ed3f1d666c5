import PeerSubstrate.Proofs.Executor.QueuedEntries

/-!
# The order of what is due

With one worker, entries that are queued together begin in the order in which they are due, in whatever order they came
(`InTurns`), and the entry of a repeating task that is due again at once comes back before later ones (`Returning`). With any
number of workers they are taken in that order (`entries_in_due_order`).
-/

namespace PeerSubstrate.Executor.Pool
open PeerSubstrate.Time PeerSubstrate.Concurrency
open Instruction (looks ofDue parts?)
open Freight Movement

/-- The script of the task has begun, or it has been passed over. -/
def Begun (task : Nat) (seen : List Movement) : Prop := .started task ∈ seen ∨ .skipped task ∈ seen

theorem Begun.append {task : Nat} {seen : List Movement} (begun : Begun task seen) (more : List Movement) :
    Begun task (seen ++ more) :=
  begun.imp (List.mem_append_left more) (List.mem_append_left more)

/-- The script of the task has begun twice, or it will not begin again. -/
def Again (task : Nat) (seen : List Movement) : Prop :=
  2 ≤ seen.countP (starts task) ∨ ∃ entry, .over entry ∈ seen ∧ entry.task.task = task

/-- The entry that a worker has in hand with a repeating task until it is queued again. -/
def Instruction.returning? : Instruction → Option Entry
  | .fire entry | .count entry | .recheck entry | .renew entry => some ⟨entry.deadline, entry.seq, .periodic entry.task⟩
  | .push entry => some entry
  | _ => none

open Instruction (returning?)

/-- Two entries of one task that stand in one place of the queue. -/
def SamePlace (one other : Entry) : Prop := one.deadline = other.deadline ∧ identity one = identity other

/-- What has become of an entry that a worker has taken and that is due again at once. The worker has it in hand, and
has begun with it unless it is about to do so; or it is in the queue again; or it has begun again; or nothing is taken
any more. -/
inductive Returning (entry : Entry) (s : System State Own Instruction) (later : List Movement) : Prop
  | working {i now} : Ahead i s → returning? i = some now → SamePlace now entry →
      i = ofDue now ∨ 1 ≤ later.countP (starts entry.task.number) → Returning entry s later
  | waiting {now} : now ∈ s.shared.scheduled.queue → SamePlace now entry → 1 ≤ later.countP (starts entry.task.number) →
      Returning entry s later
  | settled : Again entry.task.number later → Returning entry s later
  | stopped : s.shared.scheduled.stopped = true → Returning entry s later

section Step

variable {config : Config} {world : World} {me : Nat} {before after : List (Thread Own Instruction)} {own : Own}
  {instruction : Instruction} {rest : List Instruction} {effect : Effect State Own Instruction Event} {shared : State}
  {one other entry : Entry} {gone new others : List Freight} {later : List Movement}

/-- A worker that goes on with what it has taken begins with it, or passes it over. -/
theorem begun_of_perform (performed : perform world me shared own (ofDue entry) rest = some effect) :
    Begun entry.task.number (movements world shared own (ofDue entry) effect.events) := by
  obtain ⟨deadline, seq, work⟩ := entry
  cases work with
  | once job =>
    simp only [ofDue, perform, performRun] at performed
    split at performed
    · next cell found =>
      split at performed
      · cases performed
        exact .inl (List.mem_append_right _ (List.mem_singleton_self _))
      · next ends =>
        cases performed
        refine .inr (List.mem_append_left _ ?_)
        simp [ofDue, Instruction.movements, cell?_eq_some_iff.mpr found, ends, Work.number, Work.custody]
    · cases performed
      exact .inl (List.mem_append_right _ (List.mem_singleton_self _))
  | periodic repeated =>
    simp only [ofDue, perform] at performed
    split at performed
    · next ends =>
      refine .inr (List.mem_append_left _ ?_)
      simp [ofDue, Instruction.movements, ends, Work.number, Work.custody]
    · cases performed
      exact .inl (List.mem_append_right _ (List.mem_singleton_self _))

/-- An entry in the queue stays there until a worker takes it or it has to be given up. -/
theorem queued_of_perform (performed : perform world before.length shared own instruction rest = some effect)
    (hauls : Hauls world.now shared instruction gone new (movements world shared own instruction effect.events))
    (held : (freight ⟨shared, before ++ ⟨own, instruction :: rest⟩ :: after⟩).Perm (gone ++ others))
    (held' : (freight ⟨effect.shared, before ++ effect.thread :: (after ++ effect.started)⟩).Perm (new ++ others))
    (queued : entry ∈ shared.scheduled.queue) :
    entry ∈ effect.shared.scheduled.queue ∨
    .took entry ∈ movements world shared own instruction effect.events ∧
      Ahead (ofDue entry) ⟨effect.shared, before ++ effect.thread :: (after ++ effect.started)⟩ ∨
    effect.shared.scheduled.stopped = true ∧
      GivenUp entry.task.number ⟨effect.shared, before ++ effect.thread :: (after ++ effect.started)⟩ := by
  have inHand : .queued entry ∈ gone ++ others :=
    held.subset (mem_queue_iff (s := ⟨shared, before ++ ⟨own, instruction :: rest⟩ :: after⟩).mp queued)
  rcases hauls.stays inHand with stays | taken | ⟨rfl, leaves⟩
  · exact .inl (mem_queue_iff.mpr (held'.symm.subset stays))
  · obtain ⟨rfl, going, inTime, queue, first⟩ := hauls.taken taken
    have isTodo := (take_of_perform performed going first inTime).2
    exact .inr (.inl ⟨taken, effect.thread, mem_threads_iff.mpr (.inl rfl), rest, isTodo ▸ List.suffix_refl _⟩)
  · have leaving := abandon_of_leaving (held'.symm.subset (List.mem_append_left _ leaves))
    cases performed
    exact .inr (.inr ⟨rfl, .inl ⟨_, leaving, rfl⟩⟩)

/-- The first of two entries is taken before the second one. -/
structure InOrder (one other : Entry) (s : System State Own Instruction) (later : List Movement) : Prop where
  first : one ∈ s.shared.scheduled.queue ∨ s.shared.scheduled.stopped = true ∨ .took one ∈ later
  order : Precedes (.took one ∈ ·) (· = .took other) later

theorem InOrder.step (inOrder : InOrder one other ⟨shared, before ++ ⟨own, instruction :: rest⟩ :: after⟩ later)
    (isBefore : one.before other = true) (steady : Steady config ⟨shared, before ++ ⟨own, instruction :: rest⟩ :: after⟩)
    (performed : perform world before.length shared own instruction rest = some effect)
    (hauls : Hauls world.now shared instruction gone new (movements world shared own instruction effect.events))
    (held : (freight ⟨shared, before ++ ⟨own, instruction :: rest⟩ :: after⟩).Perm (gone ++ others))
    (held' : (freight ⟨effect.shared, before ++ effect.thread :: (after ++ effect.started)⟩).Perm (new ++ others)) :
    InOrder one other ⟨effect.shared, before ++ effect.thread :: (after ++ effect.started)⟩
      (later ++ movements world shared own instruction effect.events) := by
  obtain ⟨first, order⟩ := inOrder
  constructor
  case first =>
    rcases first with queued | stopped | taken
    · rcases queued_of_perform performed hauls held held' queued with stays | ⟨taken, -⟩ | ⟨stopped, -⟩
      · exact .inl stays
      · exact .inr (.inr (List.mem_append_right _ taken))
      · exact .inr (.inl stopped)
    · exact .inr (.inl ((onward_of_perform performed).stopped stopped))
    · exact .inr (.inr (List.mem_append_left _ taken))
  case order =>
    refine order.append_of_lasting (fun past more => List.mem_append_left more) ?_
    rintro _ taken rfl
    rcases first with queued | stopped | earlier
    · exact absurd isBefore (Bool.eq_false_iff.mp (steady.least hauls taken one queued))
    · cases (hauls.taken taken).2.1.symm.trans stopped
    · exact earlier

/-- With one worker, the first of two entries begins before the second one, both of which were in the queue. -/
structure InTurns (one other : Entry) (s : System State Own Instruction) (later : List Movement) : Prop where
  first : one ∈ s.shared.scheduled.queue ∨ s.shared.scheduled.stopped = true ∨ Ahead (ofDue one) s ∨
    Begun one.task.number later
  second : other ∈ s.shared.scheduled.queue ∨ .took other ∈ later ∨ GivenUp other.task.number s
  turn : .took other ∈ later → Begun one.task.number later
  order : Precedes (Begun one.task.number) (· = .started other.task.number) later

private theorem weighty_ofDue (entry : Entry) : (ofDue entry).weighty = true := by
  obtain ⟨deadline, seq, work⟩ := entry
  cases work <;> rfl

theorem InTurns.step (inTurns : InTurns one other ⟨shared, before ++ ⟨own, instruction :: rest⟩ :: after⟩ later)
    (isBefore : one.before other = true) (single : config.scheduled ≤ 1)
    (steady : Steady config ⟨shared, before ++ ⟨own, instruction :: rest⟩ :: after⟩)
    (performed : perform world before.length shared own instruction rest = some effect)
    (hauls : Hauls world.now shared instruction gone new (movements world shared own instruction effect.events))
    (held : (freight ⟨shared, before ++ ⟨own, instruction :: rest⟩ :: after⟩).Perm (gone ++ others))
    (held' : (freight ⟨effect.shared, before ++ effect.thread :: (after ++ effect.started)⟩).Perm (new ++ others)) :
    InTurns one other ⟨effect.shared, before ++ effect.thread :: (after ++ effect.started)⟩
      (later ++ movements world shared own instruction effect.events) := by
  obtain ⟨first, second, turn, order⟩ := inTurns
  have heavy := weighty_ofDue one
  constructor
  case first =>
    rcases first with queued | stopped | ahead | begun
    · rcases queued_of_perform performed hauls held held' queued with stays | ⟨-, ahead⟩ | ⟨stopped, -⟩
      · exact .inl stays
      · exact .inr (.inr (.inl ahead))
      · exact .inr (.inl stopped)
    · exact .inr (.inl ((onward_of_perform performed).stopped stopped))
    · rcases ahead.step steady.borne heavy performed with ⟨rfl, -⟩ | stays
      · have begins := begun_of_perform performed
        exact .inr (.inr (.inr (begins.imp (List.mem_append_right _) (List.mem_append_right _))))
      · exact .inr (.inr (.inl stays))
    · exact .inr (.inr (.inr (begun.append _)))
  case second =>
    rcases second with queued | taken | givenUp
    · rcases queued_of_perform performed hauls held held' queued with stays | ⟨taken, -⟩ | ⟨-, givenUp⟩
      · exact .inl stays
      · exact .inr (.inl (List.mem_append_right _ taken))
      · exact .inr (.inr givenUp)
    · exact .inr (.inl (List.mem_append_left _ taken))
    · exact .inr (.inr (givenUp.step steady.borne steady.sound performed))
  case turn =>
    intro taken
    rcases List.mem_append.mp taken with earlier | now
    · exact (turn earlier).append _
    · -- The worker looks for work, so it is not on its way with the first one.
      obtain ⟨isTake, going, -⟩ := hauls.taken now
      rcases first with queued | stopped | ahead | begun
      · exact absurd isBefore (Bool.eq_false_iff.mp (steady.least hauls now one queued))
      · cases going.symm.trans stopped
      · exact absurd isTake (ahead.not_take heavy (steady.worker single))
      · exact begun.append _
  case order =>
    refine order.append_of_lasting (fun past more begun => begun.append more) ?_
    rintro _ starts rfl
    obtain ⟨mine, busy⟩ := hauls.starts starts
    have here : instruction ∈ System.todo ⟨shared, before ++ ⟨own, instruction :: rest⟩ :: after⟩ := by simp [System.todo]
    rcases second with queued | taken | givenUp
    · exact absurd rfl (steady.borne.not_queued here mine other queued)
    · exact turn taken
    · exact (givenUp.not_run steady.borne here mine busy).elim

/-! ## A task that is due again at once -/

private theorem kind_number (work : Work) : work.kind.1 = work.number := by cases work <;> rfl

/-- What has begun so often has not begun less often later. -/
theorem starts_onward {task often : Nat} {seen : List Movement} (begun : often ≤ seen.countP (starts task)) (more : List Movement) :
    often ≤ (seen ++ more).countP (starts task) :=
  Nat.le_trans begun (List.sublist_append_left seen more).countP_le

theorem Again.append {task : Nat} {seen : List Movement} (again : Again task seen) (more : List Movement) :
    Again task (seen ++ more) := by
  rcases again with twice | ⟨ended, member, mine⟩
  · exact .inl (starts_onward twice more)
  · exact .inr ⟨ended, List.mem_append_left _ member, mine⟩

private theorem weighty_of_returning {i : Instruction} (returns : returning? i = some entry) : i.weighty = true := by
  cases i <;> first | rfl | cases returns

/-- What is due no later and has the smaller number is due before. -/
theorem before_of_later (later : one.seq < other.seq) (due : one.deadline ≤ other.deadline) : one.before other = true := by
  simp only [Scheduled.Entry.before, Bool.or_eq_true, Bool.and_eq_true, decide_eq_true_eq, beq_iff_eq]
  exact (Int.lt_or_eq_of_le due).imp_right fun same => ⟨same, later⟩

/-- One step further with such an entry. -/
theorem Returning.goOn {i : Instruction} {now : Entry} {more : List Instruction} {notes : List Movement}
    (behind : i :: .take :: more <:+ effect.thread.todo) (isNow : returning? i = some now) (same : SamePlace now entry)
    (comes : 1 ≤ (later ++ notes).countP (starts entry.task.number)) :
    Returning entry ⟨effect.shared, before ++ effect.thread :: (after ++ effect.started)⟩ (later ++ notes) :=
  .working ⟨effect.thread, mem_threads_iff.mpr (.inl rfl), more, behind⟩ isNow same (.inr comes)

private theorem Returning.ends {s : System State Own Instruction} {ended : Scheduled.Entry Periodic} {notes : List Movement}
    (same : SamePlace ⟨ended.deadline, ended.seq, .periodic ended.task⟩ entry) (ceases : .over ended ∈ notes) :
    Returning entry s (later ++ notes) := by
  have task := congrArg (fun place => place.2.1) same.2
  exact .settled (.inr ⟨ended, List.mem_append_right _ ceases, task.trans (kind_number entry.task)⟩)

private theorem returning_of_perform {now : Entry} {more : List Instruction}
    (performed : perform world me shared own instruction (.take :: more) = some effect)
    (isNow : returning? instruction = some now) (same : SamePlace now entry) (zero : entry.task.kind.2 = some (.fixedRate 0))
    (comes : instruction = ofDue now ∨ 1 ≤ later.countP (starts entry.task.number)) :
    Returning entry ⟨effect.shared, before ++ effect.thread :: (after ++ effect.started)⟩
      (later ++ movements world shared own instruction effect.events) := by
  cases instruction with
  | fire held =>
    cases isNow
    simp only [perform] at performed
    split at performed
    · next ends =>
      refine .ends same (List.mem_append_left _ ?_)
      simp [Instruction.movements, ends]
    · cases performed
      have task : held.task.task = entry.task.number := (congrArg (fun place => place.2.1) same.2).trans (kind_number entry.task)
      have begins : .started entry.task.number ∈ movements world shared own (.fire held) [.began held.task.task] :=
        List.mem_append_right _ (task ▸ List.mem_singleton_self _)
      have behind : .count held :: .take :: more <:+ Instruction.guarded held.task.task (held.task.scripts.headD [])
          own.interrupt ++ [.count held] ++ .take :: more := by
        rw [List.append_assoc]
        exact List.suffix_append _ _
      exact .goOn (i := .count held) behind rfl same
        (List.countP_pos_iff.mpr ⟨_, List.mem_append_right later begins, beq_self_eq_true entry.task.number⟩)
  | count held =>
    cases isNow
    have one := comes.resolve_left Instruction.noConfusion
    simp only [perform] at performed
    split at performed
    · next failed =>
      refine .ends same (List.mem_append_left _ ?_)
      simp [Instruction.movements, failed, Except.toBool]
    · cases performed
      exact .goOn (i := .recheck held) (List.suffix_refl _) rfl same (starts_onward one _)
  | recheck held =>
    cases isNow
    have one := comes.resolve_left Instruction.noConfusion
    simp only [perform] at performed
    split at performed
    · next ends =>
      refine .ends same (List.mem_append_left _ ?_)
      simp [Instruction.movements, ends]
    · cases performed
      exact .goOn (i := .renew held) (List.suffix_refl _) rfl same (starts_onward one _)
  | renew held =>
    cases isNow
    have one := comes.resolve_left Instruction.noConfusion
    have schedule : held.task.schedule = .fixedRate 0 :=
      Option.some.inj ((congrArg (fun place => place.2.2) same.2).trans zero)
    simp only [perform] at performed
    split at performed
    · next deadline next =>
      have unchanged : deadline = held.deadline := by
        rw [schedule, nextDeadline, Instant.after?] at next
        split at next <;> cases next
        exact Int.add_zero _
      cases performed
      have samePlace : SamePlace (renewed held deadline) entry := ⟨unchanged.trans same.1, same.2⟩
      exact .goOn (i := .push (renewed held deadline)) (List.suffix_refl _) rfl samePlace (starts_onward one _)
    · next never =>
      refine .ends same (List.mem_append_left _ ?_)
      simp [Instruction.movements, never]
  | push held =>
    obtain rfl : held = now := Option.some.inj isNow
    by_cases stopped : shared.scheduled.stopped = true
    · exact .stopped ((onward_of_perform performed).stopped stopped)
    · have one : 1 ≤ later.countP (starts entry.task.number) := by
        refine comes.resolve_left fun isDue => ?_
        obtain ⟨deadline, seq, work⟩ := held
        cases work <;> cases isDue
      have pushed : shared.scheduled.push? held =
          some { shared.scheduled with queue := Scheduled.Shared.place held shared.scheduled.queue } := if_neg stopped
      simp only [perform, pushed] at performed
      cases performed
      exact .waiting ((perm_place held shared.scheduled.queue).symm.subset List.mem_cons_self) same (starts_onward one _)
  | _ => cases isNow

theorem Returning.step (returning : Returning entry ⟨shared, before ++ ⟨own, instruction :: rest⟩ :: after⟩ later)
    (zero : entry.task.kind.2 = some (.fixedRate 0))
    (steady : Steady config ⟨shared, before ++ ⟨own, instruction :: rest⟩ :: after⟩)
    (performed : perform world before.length shared own instruction rest = some effect)
    (hauls : Hauls world.now shared instruction gone new (movements world shared own instruction effect.events))
    (held : (freight ⟨shared, before ++ ⟨own, instruction :: rest⟩ :: after⟩).Perm (gone ++ others))
    (held' : (freight ⟨effect.shared, before ++ effect.thread :: (after ++ effect.started)⟩).Perm (new ++ others)) :
    Returning entry ⟨effect.shared, before ++ effect.thread :: (after ++ effect.started)⟩
      (later ++ movements world shared own instruction effect.events) := by
  cases returning with
  | @working i now ahead isNow same comes =>
    rcases ahead.step steady.borne (weighty_of_returning isNow) performed with ⟨rfl, more, rfl⟩ | stays
    · exact returning_of_perform performed isNow same zero comes
    · exact .working stays isNow same (comes.imp_right (starts_onward · _))
  | @waiting now queued same one =>
    rcases queued_of_perform performed hauls held held' queued with stays | ⟨-, ahead⟩ | ⟨stopped, -⟩
    · exact .waiting stays same (starts_onward one _)
    · obtain ⟨deadline, seq, work⟩ := now
      cases work with
      | once job => cases (congrArg (fun place => place.2.2) same.2).trans zero
      | periodic repeated => exact .working ahead rfl same (.inl rfl)
    · exact .stopped stopped
  | settled again => exact .settled (again.append _)
  | stopped stopped => exact .stopped ((onward_of_perform performed).stopped stopped)

/-- The worker takes nothing that is later before it has begun with it again. -/
theorem Returning.again (returning : Returning entry ⟨shared, before ++ ⟨own, instruction :: rest⟩ :: after⟩ later)
    (single : config.scheduled ≤ 1) (steady : Steady config ⟨shared, before ++ ⟨own, instruction :: rest⟩ :: after⟩)
    {notes : List Movement} (hauls : Hauls world.now shared instruction gone new notes) (taken : .took other ∈ notes)
    (behind : entry.seq < other.seq) (due : entry.deadline ≤ other.deadline) : Again entry.task.number later := by
  obtain ⟨isTake, going, -⟩ := hauls.taken taken
  cases returning with
  | working ahead isNow => exact absurd isTake (ahead.not_take (weighty_of_returning isNow) (steady.worker single))
  | @waiting now queued same =>
    have seq : now.seq = entry.seq := congrArg Prod.fst same.2
    have first := before_of_later (seq ▸ behind) (same.1 ▸ due)
    exact absurd first (Bool.eq_false_iff.mp (steady.least hauls taken now queued))
  | settled again => exact again
  | stopped stopped => cases going.symm.trans stopped

end Step

/-! ## Runs -/

section Run

variable {config : Config} {calls : List (List Call)} {s t u : System State Own Instruction} {seen more notes : List Movement}
  {entry one other : Entry} {world : World} {i : Nat}

/-- No number is in two places. -/
theorem Conserved.nodup (conserved : Conserved s seen) : (((freight s).filterMap identity?).map Prod.fst).Nodup := by
  have numbers : ((seen.filterMap drawn?).map identity).map Prod.fst = List.range s.shared.scheduled.nextSeq := by
    rw [List.map_map]
    exact conserved.numbers
  have all := conserved.closures.map Prod.fst
  rw [numbers, List.map_append] at all
  exact (List.nodup_append.mp (all.nodup List.nodup_range)).2.1

/-- An entry that is queued again is due before all that have been submitted later and are not due earlier. -/
theorem Conserved.before_later (conserved : Conserved s seen) (returns : .requeued entry ∈ seen) :
    ∃ past first later, seen = past ++ .drawn first :: later ∧ identity first = identity entry ∧
      ∀ other, .drawn other ∈ later → entry.deadline ≤ other.deadline → entry.before other = true := by
  obtain ⟨first, isDrawn, same⟩ := List.mem_map.mp (conserved.rooted entry returns)
  obtain ⟨note, member, isFirst⟩ := List.mem_filterMap.mp isDrawn
  cases note <;> cases isFirst
  obtain ⟨past, later, rfl⟩ := List.append_of_mem member
  refine ⟨past, first, later, rfl, same, fun other isLater due => before_of_later ?_ due⟩
  have increasing := conserved.numbers ▸ List.pairwise_lt_range
  rw [List.filterMap_append, List.map_append] at increasing
  have behind := (List.pairwise_cons.mp (List.pairwise_append.mp increasing).2.1).1
  have seq : first.seq = entry.seq := congrArg Prod.fst same
  exact seq ▸ behind other.seq (List.mem_map_of_mem (List.mem_filterMap.mpr ⟨_, isLater, rfl⟩))

theorem InOrder.run (run : (machine.watch movements).Run (withClients config calls) s seen)
    (queued : one ∈ s.shared.scheduled.queue) (isBefore : one.before other = true)
    (onward : (machine.watch movements).Run s t more) : InOrder one other t more :=
  Steady.later (InOrder one other) run onward ⟨.inl queued, .nil _ _⟩ fun steady inOrder performed hauls held held' =>
    inOrder.step isBefore steady performed hauls held held'

theorem InTurns.run (single : config.scheduled ≤ 1) (run : (machine.watch movements).Run (withClients config calls) s seen)
    (queued : one ∈ s.shared.scheduled.queue) (queued' : other ∈ s.shared.scheduled.queue) (isBefore : one.before other = true)
    (onward : (machine.watch movements).Run s t more) : InTurns one other t more :=
  Steady.later (InTurns one other) run onward ⟨.inl queued, .inl queued', fun taken => absurd taken List.not_mem_nil, .nil _ _⟩
    fun steady inTurns performed hauls held held' => inTurns.step isBefore single steady performed hauls held held'

/-- Whoever takes an entry takes the first of the queue, which is due, and none in the queue is due before it. -/
theorem took_least (run : (machine.watch movements).Run (withClients config calls) s seen)
    (stepped : (machine.watch movements).step world i s = some (u, notes)) (taken : .took entry ∈ notes) :
    entry.deadline ≤ world.now ∧ s.shared.scheduled.queue = entry :: u.shared.scheduled.queue ∧
      (∀ other ∈ s.shared.scheduled.queue, other.before entry = false) ∧ Ahead (ofDue entry) u := by
  obtain ⟨_, plain⟩ := run.of_watch
  have steady : Steady config s := .run plain
  obtain ⟨before, own, instruction, rest, after, effect, threads, rfl, performed, rfl, rfl⟩ := Machine.watch_step_iff.mp stepped
  obtain ⟨shared, _⟩ := s
  cases threads
  change perform world before.length shared own instruction rest = some effect at performed
  obtain ⟨_, _, _, hauls, -, -⟩ := freight_of_perform before after (steady.borne.orderly _ mem_middle)
    (steady.borne.unladen _ mem_middle) performed
  have least := steady.least hauls taken
  obtain ⟨rfl, going, inTime, queue, first⟩ := hauls.taken taken
  obtain ⟨isQueue, isTodo⟩ := take_of_perform performed going first inTime
  exact ⟨inTime, isQueue ▸ first, least, effect.thread, mem_threads_iff.mpr (.inl rfl), rest, isTodo ▸ List.suffix_refl _⟩

/-- With one worker, a task that is due again at once begins again before what is later is taken. -/
theorem again_of_run (single : config.scheduled ≤ 1) (run : (machine.watch movements).Run (withClients config calls) s seen)
    (ahead : Ahead (ofDue entry) s) {repeated : Periodic} (isTask : entry.task = .periodic repeated)
    (zero : repeated.schedule = .fixedRate 0) (onward : (machine.watch movements).Run s t more) :
    Precedes (Again entry.task.number)
      (fun note => ∃ other, note = .took other ∧ entry.seq < other.seq ∧ entry.deadline ≤ other.deadline) more := by
  obtain ⟨deadline, seq, work⟩ := entry
  cases isTask
  refine (Steady.later (fun s later => Returning ⟨deadline, seq, .periodic repeated⟩ s later ∧ Precedes _ _ later)
    run onward ⟨.working ahead rfl ⟨rfl, rfl⟩ (.inl rfl), .nil _ _⟩ ?_).2
  intro before own instruction rest after effect world shared later gone new others steady ⟨returning, precedes⟩ performed hauls
    held held'
  refine ⟨returning.step (congrArg some zero) steady performed hauls held held', precedes.append_of_lasting (fun _ more => (·.append more)) ?_⟩
  rintro _ taken ⟨other, rfl, behind, due⟩
  exact returning.again single steady hauls taken behind due

/-- The scheduled pool serves what is due in order. No entry is lost, none is there twice, and one that is queued again is due
before all later submissions that are not due earlier. Entries in the queue are taken before all that are due after them, and
begin in that order if there is one worker. Whatever is taken is due, and nothing in the queue is due before it; if there is one
worker and the task is due again at once, it begins again before anything later is taken. -/
theorem entries_in_due_order (run : (machine.watch movements).Run (withClients config calls) s seen) :
    Conserved s seen ∧ (((freight s).filterMap identity?).map Prod.fst).Nodup ∧
    (∀ entry, .requeued entry ∈ seen → ∃ past first later, seen = past ++ .drawn first :: later ∧
      identity first = identity entry ∧
      ∀ other, .drawn other ∈ later → entry.deadline ≤ other.deadline → entry.before other = true) ∧
    (∀ one ∈ s.shared.scheduled.queue, ∀ other, one.before other = true →
      ∀ {t more}, (machine.watch movements).Run s t more →
        Precedes (.took one ∈ ·) (· = .took other) more ∧
        (config.scheduled ≤ 1 → other ∈ s.shared.scheduled.queue →
          Precedes (Begun one.task.number) (· = .started other.task.number) more)) ∧
    ∀ {world i u notes entry}, (machine.watch movements).step world i s = some (u, notes) → .took entry ∈ notes →
      entry.deadline ≤ world.now ∧ s.shared.scheduled.queue = entry :: u.shared.scheduled.queue ∧
      (∀ other ∈ s.shared.scheduled.queue, other.before entry = false) ∧
      (config.scheduled ≤ 1 → ∀ repeated, entry.task = .periodic repeated → repeated.schedule = .fixedRate 0 →
        ∀ {t more}, (machine.watch movements).Run u t more →
          Precedes (Again repeated.task)
            (fun note => ∃ other, note = .took other ∧ entry.seq < other.seq ∧ entry.deadline ≤ other.deadline) more) := by
  have conserved := Conserved.run run
  refine ⟨conserved, conserved.nodup, fun entry returns => conserved.before_later returns, ?_, ?_⟩
  · intro one queued other isBefore t more onward
    exact ⟨(InOrder.run run queued isBefore onward).order,
      fun single queued' => (InTurns.run single run queued queued' isBefore onward).order⟩
  · intro world i u notes entry stepped taken
    obtain ⟨inTime, first, least, ahead⟩ := took_least run stepped taken
    refine ⟨inTime, first, least, fun single repeated isTask zero t more onward => ?_⟩
    have again := again_of_run single (run.step world i stepped) ahead isTask zero onward
    rwa [isTask] at again

end Run

/-- A client submits a task that is due again at once and panics when it runs for the second time, and two more, of which the
second one is due first. There is one worker. -/
def unevenClient : System State Own Instruction :=
  withClients ⟨1, 1, 1, 0, "pool"⟩ [[.submit (.repeating 0 (.fixedRate 0)) "again" [[], [.panic none]],
    .submit (.atInstant 5) "late" [[]], .submit (.atInstant 3) "early" [[]]]]

/-- The client queues all of them, -/
def clientQueues : List (World × Nat) := (List.replicate 17 2).map (⟨0, false, []⟩, ·)

/-- and the worker runs them. -/
def workerRuns : List (World × Nat) := (List.replicate 28 1).map (⟨5, false, []⟩, ·)

/-- The entry that is taken stands in this place of the queue. -/
def Movement.takes (place : Instant × Nat × Nat × Option Repeat) : Movement → Bool
  | .took entry => (entry.deadline, identity entry) == place
  | _ => false

private theorem took_of_takes {place : Instant × Nat × Nat × Option Repeat} {note : Movement}
    (takes : note.takes place = true) :
    ∃ entry, note = .took entry ∧ (entry.deadline, identity entry) = place := by
  cases note with
  | took entry => exact ⟨entry, rfl, beq_iff_eq.mp takes⟩
  | _ => cases takes

private theorem started_of_starts {task : Nat} {seen : List Movement} (begins : ∃ note ∈ seen, note.starts task = true) :
    .started task ∈ seen := by
  obtain ⟨note, member, starts⟩ := begins
  exact eq_of_starts starts ▸ member

/-- The first task begins twice before the third one is taken, and the third one begins before the second one. -/
theorem uneven_tasks_in_turn :
    ∃ s u t seen notes more, (machine.watch movements).Run unevenClient s seen ∧
      s.shared.scheduled.queue.map (fun entry => (entry.deadline, identity entry)) =
        [(0, 0, 0, some (.fixedRate 0)), (3, 2, 2, none), (5, 1, 1, none)] ∧
      (machine.watch movements).step ⟨5, false, []⟩ 1 s = some (u, notes) ∧ (machine.watch movements).Run u t more ∧
      (∃ past other later, more = past ++ .took other :: later ∧ other.task.number = 2 ∧ Again 0 past) ∧
      ∃ past later, notes ++ more = past ++ .started 1 :: later ∧ Begun 2 past := by
  have found : ((machine.watch movements).follow clientQueues (unevenClient, [])).bind (fun (s, _) =>
      ((machine.watch movements).step ⟨5, false, []⟩ 1 s).bind fun (u, notes) =>
        ((machine.watch movements).follow workerRuns (u, [])).map fun (_, more) =>
          (s.shared.scheduled.queue.map (fun entry => (entry.deadline, identity entry)), notes.any (·.takes (0, 0, 0, some (.fixedRate 0))),
            more.any (·.takes (3, 2, 2, none)), more.any (starts 1))) =
      some ([(0, 0, 0, some (.fixedRate 0)), (3, 2, 2, none), (5, 1, 1, none)], true, true, true) := rfl
  obtain ⟨⟨s, seen⟩, queueing, found⟩ := Option.bind_eq_some_iff.mp found
  obtain ⟨⟨u, notes⟩, stepped, found⟩ := Option.bind_eq_some_iff.mp found
  obtain ⟨⟨t, more⟩, running, found⟩ := Option.map_eq_some_iff.mp found
  simp only [Prod.mk.injEq] at found
  obtain ⟨queue, takesFirst, takesEarly, startsLate⟩ := found
  have run := Machine.run_of_follow .start queueing
  have onward := Machine.run_of_follow .start running
  obtain ⟨-, -, -, together, takes⟩ := entries_in_due_order run
  obtain ⟨again, _, isQueue, isAgain, rest⟩ := List.map_eq_cons_iff.mp queue
  obtain ⟨early, _, rfl, isEarly, rest⟩ := List.map_eq_cons_iff.mp rest
  obtain ⟨late, _, rfl, isLate, -⟩ := List.map_eq_cons_iff.mp rest
  refine ⟨s, u, t, seen, notes, more, run, queue, stepped, onward, ?_, ?_⟩
  · obtain ⟨note, taken, isFirst⟩ := List.any_eq_true.mp takesFirst
    obtain ⟨note', member, isSecond⟩ := List.any_eq_true.mp takesEarly
    obtain ⟨past, later, whole⟩ := List.append_of_mem member
    obtain ⟨entry, rfl, -⟩ := took_of_takes isFirst
    obtain ⟨other, rfl, place⟩ := took_of_takes isSecond
    obtain ⟨-, first, -, returns⟩ := takes stepped taken
    obtain ⟨rfl, -⟩ := List.cons.inj (isQueue.symm.trans first)
    simp only [identity, Prod.mk.injEq] at isAgain place
    obtain ⟨deadline, seq, work⟩ := again
    cases work with
    | once job => cases (congrArg Prod.snd isAgain.2.2 : none = some (Repeat.fixedRate 0))
    | periodic repeated =>
      obtain ⟨rfl, rfl, kind⟩ := isAgain
      have task : repeated.task = 0 := congrArg Prod.fst kind
      have zero : repeated.schedule = .fixedRate 0 := Option.some.inj (congrArg Prod.snd kind)
      have twice := returns (by decide) repeated rfl zero onward past _ later whole
        ⟨other, rfl, by simp [place], by simp [place]⟩
      exact ⟨past, other, later, whole, by rw [← kind_number, place.2.2], task ▸ twice⟩
  · simp only [identity, Prod.mk.injEq] at isEarly isLate
    have isBefore : early.before late = true := by simp [Scheduled.Entry.before, isEarly, isLate]
    have turn := (together early (by simp [isQueue]) late isBefore ((Machine.Run.start.step _ _ stepped).trans onward)).2
      (by decide) (by simp [isQueue])
    have begins := List.any_eq_true.mp startsLate
    obtain ⟨past, later, whole⟩ := List.append_of_mem (List.mem_append_right notes (started_of_starts begins))
    have begun := turn past _ later whole (by rw [← kind_number late.task, isLate.2.2])
    rw [← kind_number, isEarly.2.2] at begun
    exact ⟨past, later, whole, begun⟩

end PeerSubstrate.Executor.Pool
