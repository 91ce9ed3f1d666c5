import PeerSubstrate.Proofs.Executor.QueueOrder
import PeerSubstrate.Proofs.Executor.Whereabouts

/-!
# The order of submission

Of two tasks for one deadline the one whose submission has returned first begins first, on a pool with one scheduled
thread, unless the other one overtakes it at the funnel (`begins_in_order`): it may take the funnel when that is free while
the first one still waits there.
-/

namespace PeerSubstrate.Executor.Pool
open PeerSubstrate.Time PeerSubstrate.Concurrency
open Instruction (owns looks)

/-- The task is on its way to run, which nobody has cancelled. -/
structure Due (deadline : Instant) (task : Nat) (s : System State Own Instruction) (c : Cargo) : Prop where
  routed : Routed deadline task s (some c)
  pending : Pending s.shared.records task
  drawn : ∀ entry ∈ c.entry?, entry.seq < s.shared.scheduled.nextSeq

/-- The task has begun, or has been cancelled, or the pool has been shut down. -/
def Resolved (task : Nat) (s : System State Own Instruction) (seen : List Event) : Prop :=
  .began task ∈ seen ∨ (∃ mayInterrupt, .cancelled task mayInterrupt ∈ seen) ∨ s.shared.scheduled.stopped = true

section Due

variable {task : Nat} {deadline : Instant} {world : World} {shared : State} {own : Own} {instruction : Instruction}
  {rest : List Instruction} {before after : List (Thread Own Instruction)} {effect : Effect State Own Instruction Event}
  {s u : System State Own Instruction} {c c' : Cargo} {seen events : List Event}

private theorem Resolved.perform {me : Nat} {threads : List (Thread Own Instruction)}
    (resolved : Resolved task ⟨shared, threads⟩ seen)
    (performed : perform world me shared own instruction rest = some effect) :
    Resolved task ⟨effect.shared, before ++ effect.thread :: (after ++ effect.started)⟩ (seen ++ effect.events) := by
  rcases resolved with began | ⟨mayInterrupt, cancelled⟩ | stopped
  · exact .inl (List.mem_append_left _ began)
  · exact .inr (.inl ⟨mayInterrupt, List.mem_append_left _ cancelled⟩)
  · exact .inr (.inr ((onward_of_perform performed).stopped stopped))

private theorem Resolved.later (resolved : Resolved task s events) : Resolved task s (seen ++ events) := by
  rcases resolved with began | ⟨mayInterrupt, cancelled⟩ | stopped
  · exact .inl (List.mem_append_right _ began)
  · exact .inr (.inl ⟨mayInterrupt, List.mem_append_right _ cancelled⟩)
  · exact .inr (.inr stopped)

theorem Resolved.run (resolved : Resolved task s seen) (run : machine.Run s u events) : Resolved task u (seen ++ events) := by
  refine run.invariant ?_ ?_
  · rwa [List.append_nil]
  · intro before own instruction rest after effect world shared events resolved performed
    rw [← List.append_assoc]
    exact resolved.perform performed

private theorem Advances.drawn (advances : Advances shared instruction c c')
    (performed : perform world before.length shared own instruction rest = some effect)
    (drawn : ∀ entry ∈ c.entry?, entry.seq < shared.scheduled.nextSeq) :
    ∀ entry ∈ c'.entry?, entry.seq < effect.shared.scheduled.nextSeq := by
  intro entry isEntry
  cases advances with
  | draw =>
    cases isEntry
    cases performed
    exact Nat.lt_succ_self _
  | take => cases isEntry
  | _ => exact Nat.lt_of_lt_of_le (drawn entry isEntry) (onward_of_perform performed).numbers

theorem Due.step (due : Due deadline task ⟨shared, before ++ ⟨own, instruction :: rest⟩ :: after⟩ c)
    (performed : perform world before.length shared own instruction rest = some effect) :
    (∃ c', Due deadline task ⟨effect.shared, before ++ effect.thread :: (after ++ effect.started)⟩ c' ∧
      (instruction.task? ≠ some task ∧ c' = c ∨ Advances shared instruction c c')) ∨
    Resolved task ⟨effect.shared, before ++ effect.thread :: (after ++ effect.started)⟩ effect.events := by
  obtain ⟨routed, pending, drawn⟩ := due
  have old : task ≠ shared.records.length := by
    obtain ⟨cell, found, -⟩ := pending
    exact Nat.ne_of_lt (List.getElem?_eq_some_iff.mp found).1
  have numbers := (onward_of_perform performed).numbers
  rcases routed.step (.inl old) performed with
    ⟨other, routed⟩ | ⟨d, d', isHere, advances, routed⟩ | ⟨-, stopped | ⟨job, rfl, rfl⟩⟩
  · have drawn' := fun entry isEntry => Nat.lt_of_lt_of_le (drawn entry isEntry) numbers
    by_cases outside : instruction.pooled = false
    · rcases (aside_of_perform outside performed).spares task pending other with pending | cancelled
      · exact .inl ⟨c, ⟨routed, pending, drawn'⟩, .inl ⟨other, rfl⟩⟩
      · exact .inr (.inr (.inl cancelled))
    · have quiet := (quiet_of_pooled (by simpa using outside) performed).1
      exact .inl ⟨c, ⟨routed, quiet ▸ pending, drawn'⟩, .inl ⟨other, rfl⟩⟩
  · cases isHere
    have quiet := (quiet_of_pooled advances.pooled performed).1
    exact .inl ⟨d', ⟨routed, quiet ▸ pending, advances.drawn performed drawn⟩, .inr advances⟩
  · exact .inr (.inr (.inr stopped))
  · exact .inr (.inl (began_of_run pending performed))

/-- The caller is on its way into the funnel with the task, and has `left` to do when the call has returned. -/
def InCall (caller : Nat) (left : List Instruction) (s : System State Own Instruction) (c : Cargo) : Prop :=
  ∃ own i later, s.threads[caller]? = some ⟨own, i :: later⟩ ∧ c = .hand i ∧ left <:+ later

private theorem enters_of_perform (advances : Advances shared instruction (.hand instruction) c') (early : c'.stage ≤ 2)
    (performed : perform world before.length shared own instruction rest = some effect) :
    ∃ own' i later, effect.thread = ⟨own', i :: later⟩ ∧ c' = .hand i ∧ rest <:+ later := by
  cases advances with
  | draw =>
    cases performed
    exact ⟨_, _, rest, rfl, rfl, List.suffix_refl _⟩
  | busy taken =>
    simp only [perform, Serialized.Shared.perform, taken, if_true] at performed
    cases performed
    exact ⟨_, _, _, rfl, rfl, List.suffix_cons _ _⟩
  | free => exact absurd early (by simp [Cargo.stage])
  | enqueue => exact absurd early (by simp [Cargo.stage])
  | push => exact absurd early (by simp [Cargo.stage])

theorem InCall.step {caller : Nat} {left : List Instruction}
    (routed : Routed deadline task ⟨shared, before ++ ⟨own, instruction :: rest⟩ :: after⟩ (some c))
    (inCall : InCall caller left ⟨shared, before ++ ⟨own, instruction :: rest⟩ :: after⟩ c)
    (performed : perform world before.length shared own instruction rest = some effect)
    (moved : instruction.task? ≠ some task ∧ c' = c ∨ Advances shared instruction c c') (early : c'.stage ≤ 2) :
    InCall caller left ⟨effect.shared, before ++ effect.thread :: (after ++ effect.started)⟩ c' := by
  obtain ⟨own', i, later, found, rfl, suffix⟩ := inCall
  obtain ⟨_, -, _, -, mine, -⟩ := routed.holder
  by_cases here : caller = before.length
  · subst here
    cases (getElem?_middle _).symm.trans found
    obtain ⟨own', j, later', thread, rfl, behind⟩ :=
      enters_of_perform (moved.resolve_left fun other => other.1 mine) early performed
    exact ⟨own', j, later', thread ▸ getElem?_middle _, rfl, suffix.trans behind⟩
  · obtain ⟨member, stays⟩ := getElem?_of_ne here found effect.thread effect.started
    rcases moved with ⟨-, rfl⟩ | advances
    · exact ⟨own', i, later, stays, rfl, suffix⟩
    · have same : instruction = i := by cases advances <;> rfl
      subst same
      exact absurd mine (routed.alone mine member rfl)

end Due

/-! ## Two tasks -/

/-- The first task has entered the funnel, and the second one is behind it: when the second one has got through the
funnel, the first one is in the scheduled queue or beyond. -/
structure Behind (deadline : Instant) (first second : Nat) (s : System State Own Instruction) (c d : Cargo) : Prop where
  due : Due deadline first s c
  routed : Routed deadline second s (some d)
  given : second < s.shared.records.length
  entered : 2 < c.stage
  passes : 3 < d.stage → 4 < c.stage
  waits : d.stage < 6
  fifo : s.shared.funnel.queue.Pairwise fun one other => isOf second one = true → isOf first other = false
  numbered : ∀ entry ∈ c.entry?, ∀ other ∈ d.entry?, entry.seq < other.seq

/-- The second task takes the funnel, which is free, while the first one waits there. -/
def Overtakes (first second : Nat) (s : State) (i : Instruction) : Prop :=
  (∃ entry, i = .funnel (.acquire entry) ∧ isOf second entry = true) ∧ s.funnel.active = false ∧
    ∃ entry ∈ s.funnel.queue, isOf first entry = true

section Behind

variable {first second task : Nat} {deadline : Instant} {world : World} {shared : State} {own : Own} {instruction : Instruction}
  {rest : List Instruction} {before after : List (Thread Own Instruction)} {effect : Effect State Own Instruction Event}
  {s t u : System State Own Instruction} {c c' d d' : Cargo} {seen events : List Event}

private theorem Cargo.of_entered (entered : 2 < c.stage) : (∃ entry, c = .funnel entry) ∨ (∃ entry, c = .hand (.push entry)) ∨
    (∃ entry, c = .scheduled entry) ∨ ∃ job, c = .hand (.run job) := by
  unfold Cargo.stage at entered
  split at entered
  · simp at entered
  · simp at entered
  · exact .inl ⟨_, rfl⟩
  · exact .inr (.inl ⟨_, rfl⟩)
  · exact .inr (.inr (.inl ⟨_, rfl⟩))
  · exact .inr (.inr (.inr ⟨_, rfl⟩))
  · simp at entered

/-- A thread that is going to do something else is not the one that makes the step. -/
theorem mem_of_apart {thread : Thread Own Instruction} {i : Instruction} {later : List Instruction}
    (member : thread ∈ before ++ ⟨own, instruction :: rest⟩ :: after) (isTodo : thread.todo = i :: later)
    (apart : instruction ≠ i) : thread ∈ before ++ after := by
  simp only [List.mem_append, List.mem_cons] at member ⊢
  rcases member with old | rfl | old
  · exact .inl old
  · cases isTodo
    exact absurd rfl apart
  · exact .inr old

/-- The second task gets through the funnel after the first one, unless it overtakes it there. -/
theorem Behind.passed (behind : Behind deadline first second ⟨shared, before ++ ⟨own, instruction :: rest⟩ :: after⟩ c d)
    (regular : Regular ⟨shared, before ++ ⟨own, instruction :: rest⟩ :: after⟩)
    (fair : ¬ Overtakes first second shared instruction) (advances : Advances shared instruction d d')
    (far : 3 < d'.stage) : 4 < c.stage := by
  obtain ⟨due, routed, -, entered, passes, -, fifo, numbered⟩ := behind
  rcases Cargo.of_entered entered with ⟨entry, rfl⟩ | ⟨entry, rfl⟩ | ⟨entry, rfl⟩ | ⟨job, rfl⟩
  · -- The first task is in the funnel.
    obtain ⟨there, isFirst⟩ := due.routed.funnel
    cases advances with
    | draw | busy | enqueue => simp [Cargo.stage] at far
    | push | take => simp [Cargo.stage] at passes
    | free free =>
      obtain ⟨_, -, _, -, mine, -⟩ := routed.holder
      exact absurd ⟨⟨_, rfl, beq_iff_eq.mpr (Option.some.inj mine)⟩, free, entry, there, isFirst⟩ fair
    | @receive other queue isQueue =>
      have isSecond := routed.funnel.2
      have apart := numbered entry rfl other rfl
      rw [isQueue] at there fifo
      rcases List.mem_cons.mp there with rfl | later
      · exact absurd apart (Nat.lt_irrefl _)
      · have notFirst := (List.pairwise_cons.mp fifo).1 entry later isSecond
        exact absurd isFirst (by simp [notFirst])
  · -- Its thread owns the funnel.
    obtain ⟨thread, member, later, isTodo, -, follows⟩ := due.routed.holder
    obtain ⟨behind, isLater⟩ := List.head?_eq_some_iff.mp follows
    have within : Instruction.funnel .receive ∈ thread.todo := by simp [isTodo, isLater]
    cases advances with
    | draw | busy | enqueue => simp [Cargo.stage] at far
    | push | take => simp [Cargo.stage] at passes
    | free free =>
      have none := regular.owner
      simp only [free, Bool.toNat_false, Nat.le_zero, List.countP_eq_zero] at none
      exact absurd rfl (none _ (List.mem_flatMap.mpr ⟨thread, member, within⟩))
    | receive =>
      have few := Nat.le_trans regular.owner (Bool.toNat_le _)
      cases alone_of_countP few rfl (mem_of_apart member isTodo (by simp)) within
  · simp [Cargo.stage]
  · simp [Cargo.stage]

/-- No worker takes the second task while the first one is in the scheduled queue or about to run. -/
theorem Behind.waited (behind : Behind deadline first second ⟨shared, before ++ ⟨own, instruction :: rest⟩ :: after⟩ c d)
    (regular : Regular ⟨shared, before ++ ⟨own, instruction :: rest⟩ :: after⟩) (advances : Advances shared instruction d d') :
    d'.stage < 6 := by
  obtain ⟨due, routed, -, entered, passes, -, -, numbered⟩ := behind
  cases advances with
  | @take other job queue isQueue isTask =>
    exfalso
    rcases Cargo.of_entered entered with ⟨entry, rfl⟩ | ⟨entry, rfl⟩ | ⟨entry, rfl⟩ | ⟨job, rfl⟩
    · simp [Cargo.stage] at passes
    · simp [Cargo.stage] at passes
    · have there := due.routed.scheduled.1
      have earlier := numbered entry rfl other rfl
      have sorted := regular.sorted
      simp only [isQueue] at there sorted
      rcases List.mem_cons.mp there with rfl | later
      · exact Nat.lt_irrefl _ earlier
      · have least := (List.pairwise_cons.mp sorted).1 entry later
        have one := (due.routed.legal _ rfl).1
        have two := (routed.legal _ rfl).1
        simp [Scheduled.Entry.before, one, two, earlier] at least
    · obtain ⟨thread, member, later, isTodo, -, follows⟩ := due.routed.holder
      obtain ⟨behind, isLater⟩ := List.head?_eq_some_iff.mp follows
      have within : Instruction.take ∈ thread.todo := by simp [isTodo, isLater]
      cases alone_of_countP regular.worker rfl (mem_of_apart member isTodo (by simp)) within
  | _ => simp [Cargo.stage]

/-- Entries keep their order in the funnel, and the first task is not queued there again. -/
theorem Behind.fifo_step (behind : Behind deadline first second ⟨shared, before ++ ⟨own, instruction :: rest⟩ :: after⟩ c d)
    (performed : perform world before.length shared own instruction rest = some effect) :
    effect.shared.funnel.queue.Pairwise fun one other => isOf second one = true → isOf first other = false := by
  have fifo := behind.fifo
  rcases funnel_of_perform performed with same | ⟨entry, isQueue⟩ | ⟨entry, rfl, isQueue⟩
  · exact same ▸ fifo
  · exact (List.pairwise_cons.mp (isQueue ▸ fifo)).2
  · refine isQueue ▸ List.pairwise_append.mpr ⟨fifo, List.pairwise_singleton _ _, fun one _ other isLast _ => ?_⟩
    cases List.mem_singleton.mp isLast
    refine Bool.eq_false_iff.mpr fun isFirst => ?_
    have mine : (Instruction.funnel (.enqueue entry)).task? = some first := congrArg some (beq_iff_eq.mp isFirst)
    have isHere := behind.due.routed.hand mine
    cases isHere
    exact absurd behind.entered (by simp [Cargo.stage])

/-- A task begins when a thread has it to run. -/
theorem Routed.began (routed : Routed deadline task ⟨shared, before ++ ⟨own, instruction :: rest⟩ :: after⟩ (some d))
    (performed : perform world before.length shared own instruction rest = some effect) (began : .began task ∈ effect.events) :
    ∃ job, d = .hand (.run job) := by
  by_cases outside : instruction.pooled = false
  · have mine := (aside_of_perform outside performed).begins task began
    have isHere := routed.hand mine
    cases isHere
    have legal := routed.legal _ rfl
    cases instruction with
    | run job => exact ⟨job, rfl⟩
    | draw | funnel | push => cases outside
    | _ => exact legal.elim
  · exact absurd began ((quiet_of_pooled (by simpa using outside) performed).2 task)

theorem Behind.step (behind : Behind deadline first second ⟨shared, before ++ ⟨own, instruction :: rest⟩ :: after⟩ c d)
    (regular : Regular ⟨shared, before ++ ⟨own, instruction :: rest⟩ :: after⟩)
    (more : shared.records.length ≤ effect.shared.records.length)
    (performed : perform world before.length shared own instruction rest = some effect) :
    ((∃ c' d', Behind deadline first second ⟨effect.shared, before ++ effect.thread :: (after ++ effect.started)⟩ c' d') ∧
      .began second ∉ effect.events) ∨
    Resolved first ⟨effect.shared, before ++ effect.thread :: (after ++ effect.started)⟩ effect.events ∨
    Overtakes first second shared instruction := by
  by_cases fair : Overtakes first second shared instruction
  · exact .inr (.inr fair)
  rcases behind.due.step performed with ⟨c', due, moved⟩ | resolved
  swap
  · exact .inr (.inl resolved)
  have onward : c.stage ≤ c'.stage ∧ ∀ entry ∈ c'.entry?, entry ∈ c.entry? := by
    rcases moved with ⟨-, rfl⟩ | advances
    · exact ⟨Nat.le_refl _, fun _ => id⟩
    · exact ⟨Nat.le_of_lt advances.stage_lt, advances.entry (Nat.zero_lt_of_lt behind.entered)⟩
  have unbegun : .began second ∉ effect.events := by
    intro began
    obtain ⟨job, rfl⟩ := behind.routed.began performed began
    exact absurd behind.waits (by simp [Cargo.stage])
  have goes : ∀ d', Routed deadline second ⟨effect.shared, before ++ effect.thread :: (after ++ effect.started)⟩ (some d') →
      (3 < d'.stage → 4 < c.stage) → d'.stage < 6 → (∀ entry ∈ c.entry?, ∀ other ∈ d'.entry?, entry.seq < other.seq) →
      Behind deadline first second ⟨effect.shared, before ++ effect.thread :: (after ++ effect.started)⟩ c' d' := by
    intro d' routed passes waits numbered
    exact ⟨due, routed, Nat.lt_of_lt_of_le behind.given more, Nat.lt_of_lt_of_le behind.entered onward.1,
      fun far => Nat.lt_of_lt_of_le (passes far) onward.1, waits, behind.fifo_step performed,
      fun entry isEntry => numbered entry (onward.2 entry isEntry)⟩
  rcases behind.routed.step (.inl (Nat.ne_of_lt behind.given)) performed with
    ⟨-, routed⟩ | ⟨_, d', ⟨⟩, advances, routed⟩ | ⟨-, stopped | ⟨job, rfl, isSecond⟩⟩
  · exact .inl ⟨⟨c', d, goes d routed behind.passes behind.waits behind.numbered⟩, unbegun⟩
  · refine .inl ⟨⟨c', d', goes d' routed (behind.passed regular fair advances) (behind.waited regular advances) ?_⟩, unbegun⟩
    intro entry isEntry other isOther
    rcases advances.numbered other isOther with same | new
    · exact behind.numbered entry isEntry other same
    · exact new ▸ behind.due.drawn entry isEntry
  · exact .inr (.inl (.inr (.inr stopped)))
  · have isHere := behind.routed.hand (congrArg some isSecond)
    cases isHere
    exact absurd behind.waits (by simp [Cargo.stage])

end Behind

/-! ## Runs -/

section Run

variable {config : Config} {calls : List (List Call)} {origin s t u : System State Own Instruction}
  {seen events more : List Event} {deadline : Instant} {task first second caller i : Nat} {world : World}
  {left : List Instruction} {c d : Cargo}

/-- The caller begins to schedule a new task for this deadline, and has `left` to do when the call has returned. -/
structure Schedules (s t : System State Own Instruction) (caller : Nat) (deadline : Instant) (task : Nat)
    (left : List Instruction) : Prop where
  calls : ∃ own id scripts, s.threads[caller]? = some ⟨own, .submit (.atInstant deadline) id scripts :: left⟩
  new : s.shared.records.length = task
  stepped : ∃ world, machine.step world caller s = some (t, [])

/-- Two tasks are submitted for one deadline. The call with the second has led to `called`; before it began, the call with
the first had returned. What has been seen since that one. -/
inductive InTurn (origin called : System State Own Instruction) (deadline : Instant) (first second : Nat) : List Event → Prop
  | intro {s t r u earlier during between caller other left later own} : machine.Run origin s earlier →
      Schedules s t caller deadline first left → machine.Run t r during → r.threads[caller]? = some ⟨own, left⟩ →
      machine.Run r u between → Schedules u called other deadline second later →
      InTurn origin called deadline first second (during ++ between)

/-- On the way from `origin` to `s` the second task has taken the funnel, which was free, while the first one waited there. -/
def Overtaken (origin s : System State Own Instruction) (seen : List Event) (first second : Nat) : Prop :=
  ∃ t u earlier events later world i own instruction rest, machine.Run origin t earlier ∧
    t.threads[i]? = some ⟨own, instruction :: rest⟩ ∧ Overtakes first second t.shared instruction ∧
    machine.step world i t = some (u, events) ∧ machine.Run u s later ∧ seen = earlier ++ (events ++ later)

theorem Overtaken.step (overtaken : Overtaken origin s seen first second)
    (stepped : machine.step world i s = some (u, events)) : Overtaken origin u (seen ++ events) first second := by
  obtain ⟨t', u', earlier, taking, later, world', i', own, instruction, rest, before, here, takes, stepped', after, rfl⟩ :=
    overtaken
  refine ⟨t', u', earlier, taking, later ++ events, world', i', own, instruction, rest, before, here, takes, stepped',
    after.step world i stepped, ?_⟩
  simp only [List.append_assoc]

private theorem Schedules.due (known : Known s) (called : Schedules s t caller deadline task left) :
    ∃ job, Due deadline task t (.hand (.draw deadline (.once job) true)) ∧
      InCall caller left t (.hand (.draw deadline (.once job) true)) := by
  obtain ⟨⟨own, id, scripts, here⟩, new, world, stepped⟩ := called
  obtain ⟨before, own', instruction, rest, after, effect, threads, rfl, performed, rfl, -⟩ :=
    Machine.step_eq_some_iff.mp stepped
  obtain ⟨shared, _⟩ := s
  cases threads
  cases (getElem?_middle _).symm.trans here
  obtain ⟨job, isTodo, routed, pending⟩ := (known deadline task (Nat.le_of_eq new)).submit new
    (show perform world before.length shared own _ left = some effect from performed)
  refine ⟨job, ⟨routed, pending, nofun⟩, effect.thread.own, _, left, ?_, rfl, List.suffix_refl _⟩
  exact (getElem?_middle _).trans (congrArg some (congrArg (Thread.mk effect.thread.own) isTodo))

/-- When the call has returned, the task is at least in the funnel. -/
theorem Due.called (due : Due deadline task t c) (inCall : InCall caller left t c) (run : machine.Run t s seen) :
    Resolved task s seen ∨ ∃ c, Due deadline task s c ∧ (c.stage ≤ 2 → InCall caller left s c) := by
  refine run.invariant ?_ ?_
  · exact .inr ⟨c, due, fun _ => inCall⟩
  · rintro before own instruction rest after effect world shared seen (resolved | ⟨c, due, inCall⟩) performed
    · exact .inl (resolved.perform performed)
    rcases due.step performed with ⟨c', due', moved⟩ | resolved
    · refine .inr ⟨c', due', fun early => (inCall ?_).step due.routed performed moved early⟩
      rcases moved with ⟨-, rfl⟩ | advances
      · exact early
      · exact Nat.le_trans (Nat.le_of_lt advances.stage_lt) early
    · exact .inl resolved.later

private theorem InCall.unreturned (inCall : InCall caller left s c) {own : Own} : s.threads[caller]? ≠ some ⟨own, left⟩ := by
  obtain ⟨_, i, later, here, -, suffix⟩ := inCall
  intro returned
  rw [here] at returned
  cases returned
  exact absurd suffix.length_le (by simp)

theorem Due.run (due : Due deadline task t c) (entered : 2 < c.stage) (run : machine.Run t s seen) :
    Resolved task s seen ∨ ∃ c, Due deadline task s c ∧ 2 < c.stage := by
  refine run.invariant ?_ ?_
  · exact .inr ⟨c, due, entered⟩
  · rintro before own instruction rest after effect world shared seen (resolved | ⟨c, due, entered⟩) performed
    · exact .inl (resolved.perform performed)
    rcases due.step performed with ⟨c', due', ⟨-, rfl⟩ | advances⟩ | resolved
    · exact .inr ⟨_, due', entered⟩
    · exact .inr ⟨c', due', Nat.lt_trans entered advances.stage_lt⟩
    · exact .inl resolved.later

/-- What holds along every run of a pool with one scheduled thread. -/
structure Proper (s : System State Own Instruction) : Prop where
  regular : Regular s
  sound : Sound s
  known : Known s

theorem Proper.start (single : config.scheduled ≤ 1) (calls : List (List Call)) : Proper (withClients config calls) :=
  ⟨.start single calls, .start config calls, .start config calls⟩

theorem Proper.run (proper : Proper t) (run : machine.Run t s seen) : Proper s :=
  ⟨proper.regular.run run, proper.sound.run run, proper.known.run proper.sound run⟩

theorem Behind.run (behind : Behind deadline first second t c d) (proper : Proper t) (run : machine.Run t s seen) :
    ((∃ c d, Behind deadline first second s c d) ∧ .began second ∉ seen) ∨
      Resolved first s seen ∨ Overtaken t s seen first second := by
  induction run with
  | start => exact .inl ⟨⟨c, d, behind⟩, List.not_mem_nil⟩
  | @step s u seen events world i run stepped ih =>
    rcases ih with ⟨⟨c, d, behind⟩, unbegun⟩ | resolved | overtaken
    · obtain ⟨regular, sound, -⟩ := proper.run run
      obtain ⟨_, _, _, _, -, -, touches⟩ := sound.touches stepped
      have grows := length_le_of_touches touches
      obtain ⟨before, own, instruction, rest, after, effect, threads, rfl, performed, rfl, rfl⟩ :=
        Machine.step_eq_some_iff.mp stepped
      obtain ⟨shared, _⟩ := s
      cases threads
      rcases behind.step regular grows performed with ⟨goes, quiet⟩ | resolved | overtakes
      · exact .inl ⟨goes, fun member => (List.mem_append.mp member).elim unbegun quiet⟩
      · exact .inr (.inl resolved.later)
      · exact .inr (.inr ⟨_, _, seen, effect.events, [], world, _, own, instruction, rest, run, getElem?_middle _, overtakes,
          stepped, .start, by rw [List.append_nil]⟩)
    · exact .inr (.inl (resolved.run (.step world i .start stepped)))
    · exact .inr (.inr (overtaken.step stepped))

/-- The second task has just been submitted. -/
theorem Behind.start {job : Job} (due : Due deadline first s c) (entered : 2 < c.stage)
    (submitted : Due deadline second s (.hand (.draw deadline (.once job) true))) :
    Behind deadline first second s c (.hand (.draw deadline (.once job) true)) := by
  refine ⟨due, submitted.routed, ?_, entered, ?_, ?_, ?_, fun _ _ _ absent => by cases absent⟩
  · obtain ⟨cell, found, -⟩ := submitted.pending
    exact (List.getElem?_eq_some_iff.mp found).1
  · simp [Cargo.stage]
  · simp [Cargo.stage]
  · refine List.pairwise_of_forall_mem_list fun entry queued _ _ isSecond => ?_
    have there : Cargo.funnel entry ∈ s.shared.cargo second := by simp [State.cargo, cargoOf, queued, isSecond]
    cases List.mem_singleton.mp (submitted.routed.lies.subset (List.mem_append_right _ there))

/-- Of two tasks for one deadline the one that was submitted first begins first, unless it is cancelled, the pool is shut
down, or the other one overtakes it on its way into the funnel. -/
theorem begins_in_order (single : config.scheduled ≤ 1)
    (inTurn : InTurn (withClients config calls) t deadline first second seen) (run : machine.Run t s more)
    (began : .began second ∈ more) : Resolved first s (seen ++ more) ∨ Overtaken t s more first second := by
  obtain ⟨past, isFirst, call, returned, wait, isSecond⟩ := inTurn
  have ⟨_, stepped₁⟩ := isFirst.stepped
  have ⟨_, stepped₂⟩ := isSecond.stepped
  have proper := (Proper.start single calls).run past
  obtain ⟨job, due, inCall⟩ := isFirst.due proper.known
  replace proper := proper.run (.step _ _ .start stepped₁)
  have further : machine.Run _ t _ := List.append_nil _ ▸ wait.step _ _ stepped₂
  rcases due.called inCall call with resolved | ⟨c, due, inCall⟩
  · exact .inl ((resolved.run further).run run)
  have entered : 2 < c.stage := Nat.lt_of_not_le fun early => (inCall early).unreturned returned
  replace proper := proper.run call
  obtain ⟨job, submitted, -⟩ := isSecond.due (proper.run wait).known
  rcases due.run entered further with resolved | ⟨c, due, entered⟩
  · exact .inl (resolved.later.run run)
  rcases (Behind.start due entered submitted).run (proper.run further) run with ⟨-, unbegun⟩ | resolved | overtaken
  · exact absurd began unbegun
  · exact .inl resolved.later
  · exact .inr overtaken

end Run

/-- A pool with one scheduled thread, and a client for each list of deadlines, who submits a task for each of them. -/
def submitters (deadlines : List (List Instant)) : System State Own Instruction :=
  withClients ⟨1, 2, 1, 0, "pool"⟩
    (deadlines.map fun mine => mine.map fun deadline => .submit (.atInstant deadline) "task" [[]])

/-- The threads step in this order, all at one instant. -/
def atOnce (threads : List Nat) : List (World × Nat) := threads.map (⟨0, false, []⟩, ·)

/-- The first call is the first thing that happens. -/
theorem inTurn_of_follow {origin t r u called : System State Own Instruction} {during between : List Event} {deadline : Instant}
    {first second : Nat} {left later : List Instruction} {own own' own₂ : Own} {id id₂ : String}
    {scripts scripts₂ : List Script} (caller other : Nat) (call wait : List Nat)
    (isFirst : origin.threads[caller]? = some ⟨own, .submit (.atInstant deadline) id scripts :: left⟩)
    (new : origin.shared.records.length = first) (began : machine.step ⟨0, false, []⟩ caller origin = some (t, []))
    (calls : machine.follow (atOnce call) (t, []) = some (r, during)) (returned : r.threads[caller]? = some ⟨own', left⟩)
    (waits : machine.follow (atOnce wait) (r, []) = some (u, between))
    (isSecond : u.threads[other]? = some ⟨own₂, .submit (.atInstant deadline) id₂ scripts₂ :: later⟩)
    (new₂ : u.shared.records.length = second) (began₂ : machine.step ⟨0, false, []⟩ other u = some (called, [])) :
    InTurn origin called deadline first second (during ++ between) :=
  .intro .start ⟨⟨own, id, scripts, isFirst⟩, new, _, began⟩ (Machine.run_of_follow .start calls) returned
    (Machine.run_of_follow .start waits) ⟨⟨own₂, id₂, scripts₂, isSecond⟩, new₂, _, began₂⟩

/-- A client submits two tasks one after the other, and the worker runs both. -/
theorem both_begin : ∃ t seen s more, InTurn (submitters [[0, 0]]) t 0 0 1 seen ∧ machine.Run t s more ∧ .began 1 ∈ more ∧
    (Resolved 0 s (seen ++ more) ∨ Overtaken t s more 0 1) := by
  have inTurn : ∃ t seen s more, InTurn (submitters [[0, 0]]) t 0 0 1 seen ∧
      machine.follow (atOnce (List.replicate 6 2 ++ List.replicate 9 1)) (t, []) = some (s, more) ∧ .began 1 ∈ more := by
    refine ⟨_, _, _, _, inTurn_of_follow 2 2 (List.replicate 6 2) [] rfl rfl rfl rfl rfl rfl rfl rfl rfl, rfl, ?_⟩
    decide
  obtain ⟨t, seen, s, more, inTurn, followed, began⟩ := inTurn
  have run := Machine.run_of_follow .start followed
  exact ⟨t, seen, s, more, inTurn, run, began, begins_in_order (Nat.le_refl 1) inTurn run began⟩

/-- The third client owns the funnel and has found it empty when the first task is put there. It lets the funnel go, and the
second client takes it before the third has looked again. -/
theorem overtaken_in_the_funnel : ∃ t seen s more, InTurn (submitters [[0], [0], [5]]) t 0 0 2 seen ∧ machine.Run t s more ∧
    .began 2 ∈ more ∧ ¬ Resolved 0 s (seen ++ more) := by
  have inTurn : ∃ t seen s more, InTurn (submitters [[0], [0], [5]]) t 0 0 2 seen ∧
      machine.follow (atOnce [3, 3, 3, 1, 1]) (t, []) = some (s, more) ∧ .began 2 ∈ more ∧
      .began 0 ∉ seen ++ more ∧ (∀ mayInterrupt, .cancelled 0 mayInterrupt ∉ seen ++ more) ∧
      s.shared.scheduled.stopped = false := by
    refine ⟨_, _, _, _, inTurn_of_follow 2 3 [4, 4, 4, 4, 4, 2, 2, 2, 2] [4] rfl rfl rfl rfl rfl rfl rfl rfl rfl, rfl, ?_⟩
    decide
  obtain ⟨t, seen, s, more, inTurn, followed, began, unbegun, uncancelled, going⟩ := inTurn
  refine ⟨t, seen, s, more, inTurn, Machine.run_of_follow .start followed, began, ?_⟩
  rintro (other | ⟨mayInterrupt, cancelled⟩ | stopped)
  · exact unbegun other
  · exact uncancelled mayInterrupt cancelled
  · exact nomatch going.symm.trans stopped

end PeerSubstrate.Executor.Pool
