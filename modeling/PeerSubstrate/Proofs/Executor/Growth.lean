import PeerSubstrate.Proofs.Concurrency.Run
import PeerSubstrate.Proofs.Executor.Asides
import PeerSubstrate.Proofs.Executor.Backlog

/-!
# Growth of the immediate pool

A worker that has waited in vain does not look at the queue again before it gives its place up. So a job that is queued in
between may wait behind workers that are busy although the pool could grow, and this is the only way (`understaffed_iff`):
otherwise whoever has queued a job or taken one, or waits for one, sees the backlog and adds a worker.
-/

namespace PeerSubstrate.Executor

namespace Pool
open PeerSubstrate.Time PeerSubstrate.Concurrency
open Immediate (Overseen front)
open Instruction (immediate?)

section Perform

variable {world : World} {me : Nat} {s : State} {own : Own} {instruction : Instruction} {rest : List Instruction}
  {effect : Effect State Own Instruction Event}

/-- A thread does something outside of the immediate pool. It may come to a submission, or close the pool. -/
structure Aloof (s : State) (rest : List Instruction) (effect : Effect State Own Instruction Event) : Prop where
  pool : effect.shared.immediate = s.immediate ∨ effect.shared.immediate = s.immediate.close
  started : effect.started = []
  quiet : ∀ event ∈ effect.events, event.stirs = false
  goesOn : ∃ new behind, effect.thread.todo = new ++ behind ∧ behind <:+ rest ∧
    (new.filterMap immediate? = [] ∨ ∃ job, new = [.immediate (.send job)])

private theorem Aside.aloof (aside : Aside s instruction rest effect) : Aloof s rest effect := by
  refine ⟨.inl aside.immediate, aside.started, aside.quiet, ?_⟩
  obtain ⟨new, behind, isTodo, suffix, others | ⟨i, rfl, submits, -⟩⟩ := aside.goesOn
  · refine ⟨new, behind, isTodo, suffix, .inl (List.filterMap_eq_nil_iff.mpr fun i member => ?_)⟩
    have noStep := (others i member).1
    cases i <;> first | rfl | cases noStep
  · refine ⟨[i], behind, isTodo, suffix, ?_⟩
    rcases submits with ⟨script, rfl⟩ | ⟨deadline, work, funnelled, rfl, -⟩
    · exact .inr ⟨_, rfl⟩
    · exact .inl rfl

private theorem Aloof.goOn {s' : State} {todo : List Instruction} {events : List Event}
    (performed : Pool.goOn s' own rest todo events = some effect) (pool : s'.immediate = s.immediate)
    (quiet : ∀ event ∈ events, event.stirs = false) (others : ∀ i ∈ todo, immediate? i = none) : Aloof s rest effect := by
  cases performed
  exact ⟨.inl pool, rfl, quiet, todo, rest, rfl, List.suffix_refl _, .inl (List.filterMap_eq_nil_iff.mpr others)⟩

theorem aloof_of_perform (other : immediate? instruction = none)
    (performed : perform world me s own instruction rest = some effect) : Aloof s rest effect := by
  by_cases outside : instruction.pooled = false
  · exact (aside_of_perform outside performed).aloof
  cases instruction with
  | immediate => cases other
  | draw deadline work funnelled =>
    refine .goOn performed rfl (by simp) ?_
    cases funnelled <;> simp
  | funnel step =>
    refine .goOn performed rfl (by simp) fun i member => ?_
    obtain ⟨next, -, rfl⟩ := List.mem_map.mp member
    cases next <;> rfl
  | push entry =>
    simp only [perform, Scheduled.Shared.push?] at performed
    split at performed <;> exact .goOn performed rfl (by simp) (by simp)
  | take =>
    simp only [perform, performTake] at performed
    split at performed
    · exact .goOn performed rfl (by simp) (by simp)
    · cases performed
    · split at performed <;> exact .goOn performed rfl (by simp [Event.stirs]) (by simp)
  | closeImmediate =>
    cases performed
    exact ⟨.inr rfl, rfl, by simp, [], rest, rfl, List.suffix_refl _, .inl rfl⟩
  | closeScheduled =>
    refine .goOn performed rfl (by simp) fun i member => ?_
    simp only [List.mem_append, List.mem_map, List.mem_singleton] at member
    rcases member with ⟨entry, -, rfl⟩ | rfl <;> rfl
  | _ => exact absurd rfl outside

/-- The points of the immediate pool at which threads are. -/
def fronts (threads : List (Thread Own Instruction)) : List (Immediate.Step Job) :=
  threads.filterMap fun thread => thread.todo.head?.bind immediate?

private theorem fronts_cons (thread : Thread Own Instruction) (threads : List (Thread Own Instruction)) :
    fronts (thread :: threads) = (thread.todo.head?.bind immediate?).toList ++ fronts threads := by
  unfold fronts
  rw [List.filterMap_cons]
  cases thread.todo.head?.bind immediate? <;> rfl

/-- In what is left for later, the only step of the immediate pool is the beginning of a worker's next round. -/
def Tame (later : List Instruction) : Prop := ∀ step, .immediate step ∈ later → step = .park

private theorem Tame.front {later behind : List Instruction} (tame : Tame later) (suffix : behind <:+ later) :
    ∀ step ∈ (behind.head?.bind immediate?).toList, step.begins = true := by
  intro step isFront
  cases behind with
  | nil => cases isFront
  | cons i behind =>
    have member : i ∈ later := suffix.subset List.mem_cons_self
    cases i <;> simp at isFront
    subst isFront
    rw [tame _ member]
    rfl

theorem Tame.append {new behind : List Instruction} (tame : Tame behind) (others : new.filterMap immediate? = []) :
    Tame (new ++ behind) := by
  intro step member
  rcases List.mem_append.mp member with here | there
  · cases List.filterMap_eq_nil_iff.mp others _ here
  · exact tame step there

private theorem Tame.suffix {later behind : List Instruction} (tame : Tame later) (suffix : behind <:+ later) : Tame behind :=
  fun step member => tame step (suffix.subset member)

private theorem Aloof.tame (aloof : Aloof s rest effect) (tame : Tame rest) : Tame effect.thread.todo.tail ∧
    ∀ step ∈ (effect.thread.todo.head?.bind immediate?).toList, step.begins = true := by
  obtain ⟨-, -, -, new, behind, isTodo, suffix, others | ⟨job, rfl⟩⟩ := aloof
  · rw [isTodo]
    cases new with
    | nil => exact ⟨tame.suffix ((List.tail_suffix behind).trans suffix), tame.front suffix⟩
    | cons i new =>
      have apart := List.filterMap_eq_nil_iff.mp others
      refine ⟨(tame.suffix suffix).append (List.filterMap_eq_nil_iff.mpr fun j member => ?_), ?_⟩
      · exact apart j (List.mem_cons_of_mem _ member)
      · rw [List.cons_append, List.head?_cons, Option.bind_some, apart i List.mem_cons_self]
        exact fun step none => (List.not_mem_nil none).elim
  · rw [isTodo]
    refine ⟨tame.suffix suffix, ?_⟩
    simp [Immediate.Step.begins]

/-- A thread goes on in the immediate pool. -/
structure Serves (s : State) (step : Immediate.Step Job) (effect : Effect State Own Instruction Event)
    (next : List (Immediate.Next Job)) : Prop where
  performed : ∃ expired, s.immediate.perform expired step = some (effect.shared.immediate, next)
  tame : Tame effect.thread.todo.tail
  started : ∀ thread ∈ effect.started, Tame thread.todo.tail
  goesOn : ∃ more, (fronts (effect.thread :: effect.started)).Perm (front next ++ more) ∧ ∀ step ∈ more, step.begins = true
  quiet : (effect.started = [] ∧ ∀ event ∈ effect.events, event.stirs = false) ∨
    ∃ other ∈ front next, ∀ core max, other.sees core max = true

private theorem serves_of_perform {step : Immediate.Step Job} (tame : Tame rest)
    (performed : perform world me s own (.immediate step) rest = some effect) : ∃ next, Serves s step effect next := by
  obtain ⟨⟨immediate, next⟩, served, rfl⟩ := Option.map_eq_some_iff.mp performed
  rcases Immediate.Shared.next_of_perform served with rfl | ⟨job, rfl⟩ | ⟨number, rfl⟩ | ⟨other, rfl⟩ | ⟨job, rfl⟩
  · refine ⟨[], ⟨⟨_, served⟩, tame.suffix (List.tail_suffix rest), by simp, ⟨_, ?_, tame.front (List.suffix_refl rest)⟩, ?_⟩⟩
    · exact .of_eq ((fronts_cons _ _).trans (List.append_nil _))
    · exact .inl ⟨rfl, by simp⟩
  · refine ⟨[.reject job], ⟨⟨_, served⟩, tame, by simp, ⟨[], List.Perm.refl _, by simp⟩, ?_⟩⟩
    exact .inl ⟨rfl, by simp [Event.stirs]⟩
  · refine ⟨[.start number], ⟨⟨_, served⟩, tame.suffix (List.tail_suffix rest), ?_,
      ⟨_, ?_, tame.front (List.suffix_refl rest)⟩, ?_⟩⟩
    · intro thread member
      cases List.mem_singleton.mp member
      exact fun step none => (List.not_mem_nil none).elim
    · exact (List.Perm.of_eq (fronts_cons _ _)).trans List.perm_append_comm
    · exact .inr ⟨.park, List.mem_singleton_self _, fun _ _ => rfl⟩
  · refine ⟨[.go other], ⟨⟨_, served⟩, tame, by simp, ⟨[], List.Perm.refl _, by simp⟩, ?_⟩⟩
    cases other with
    | countThreads => exact .inr ⟨.countThreads, List.mem_singleton_self _, fun _ _ => rfl⟩
    | unpark received =>
      exact .inr ⟨.unpark received, List.mem_singleton_self _, fun _ _ => rfl⟩
    | _ => exact .inl ⟨rfl, by simp⟩
  · refine ⟨[.go .countThreads, .run job, .go .park], ⟨⟨_, served⟩, ?_, by simp, ⟨[], List.Perm.refl _, by simp⟩, ?_⟩⟩
    · intro step member
      simp only [List.flatMap_cons, List.flatMap_nil, Instruction.ofImmediate, List.append_nil, List.cons_append,
        List.nil_append, List.tail_cons, List.mem_cons, Instruction.immediate.injEq, reduceCtorEq, false_or] at member
      exact member.elim id (tame step)
    · exact .inr ⟨.countThreads, List.mem_singleton_self _, fun _ _ => rfl⟩

private theorem tame_of_perform (tame : Tame rest) (performed : perform world me s own instruction rest = some effect) :
    ∀ thread ∈ effect.thread :: effect.started, Tame thread.todo.tail := by
  intro thread member
  by_cases other : immediate? instruction = none
  · have aloof := aloof_of_perform other performed
    rw [aloof.started] at member
    cases List.mem_singleton.mp member
    exact (aloof.tame tame).1
  · cases instruction <;> first | exact absurd rfl other | skip
    obtain ⟨next, serves⟩ := serves_of_perform tame performed
    rcases List.mem_cons.mp member with rfl | started
    · exact serves.tame
    · exact serves.started thread started

/-- Whatever a thread does, the backlog is overseen afterwards, unless it is deserted now. -/
theorem overseen_of_perform {others : List (Immediate.Step Job)} {deserted deserted' : Prop} (tame : Tame rest)
    (performed : perform world me s own instruction rest = some effect)
    (overseen : Overseen s.immediate ((immediate? instruction).toList ++ others) deserted)
    (keeps : effect.started = [] → (∀ event ∈ effect.events, event.stirs = false) → deserted → deserted')
    (leaves : effect.shared.immediate.threads < s.immediate.threads → effect.shared.immediate.queue ≠ [] → deserted') :
    Overseen effect.shared.immediate (fronts (effect.thread :: effect.started) ++ others) deserted' := by
  by_cases other : immediate? instruction = none
  · have aloof := aloof_of_perform other performed
    have begin := (aloof.tame tame).2
    rw [other] at overseen
    rw [aloof.started, fronts_cons]
    refine Overseen.append ?_ (by simpa [fronts] using begin)
    have left := overseen.imp (keeps aloof.started aloof.quiet)
    rcases aloof.pool with same | closed
    · rw [same]
      exact left
    · rw [closed]
      exact left.close
  · cases instruction <;> first | exact absurd rfl other | skip
    next step =>
    obtain ⟨next, ⟨expired, performed⟩, -, -, ⟨more, goesOn, begin⟩, quiet⟩ := serves_of_perform tame performed
    have stays : deserted → deserted' ∨ ∃ other ∈ front next, other.sees s.immediate.core s.immediate.max = true := by
      intro still
      rcases quiet with ⟨none, calm⟩ | ⟨other, isFront, sees⟩
      · exact .inl (keeps none calm still)
      · exact .inr ⟨other, isFront, sees _ _⟩
    have served : Overseen effect.shared.immediate (front next ++ others) deserted' := overseen.perform performed stays leaves
    refine (served.append begin).perm ?_
    rw [← List.append_assoc]
    exact (List.perm_append_comm.trans goesOn.symm).append_right others

private theorem limits_of_perform (performed : perform world me s own instruction rest = some effect) :
    effect.shared.immediate.max = s.immediate.max ∧
    (effect.started = [] → effect.shared.immediate.threads ≤ s.immediate.threads) := by
  by_cases other : immediate? instruction = none
  · rcases (aloof_of_perform other performed).pool with same | closed
    · rw [same]
      exact ⟨rfl, fun _ => Nat.le_refl _⟩
    · rw [closed]
      exact ⟨rfl, fun _ => Nat.le_refl _⟩
  · cases instruction <;> first | exact absurd rfl other | skip
    obtain ⟨⟨immediate, next⟩, served, rfl⟩ := Option.map_eq_some_iff.mp performed
    obtain ⟨max, fewer | ⟨number, rfl⟩⟩ := Immediate.Shared.limits_of_perform served
    · exact ⟨max, fun _ => fewer⟩
    · exact ⟨max, fun none => nomatch none⟩

end Perform

/-! ## Runs -/

section Run

variable {config : Config} {calls : List (List Call)} {world : World} {i : Nat}
  {origin s t u : System State Own Instruction} {seen events : List Event}

/-- On the way from `origin` to `s` a worker has given its place up although a job was waiting, and since then no worker
has been started, no job has been queued, and none has been taken. -/
def Deserted (origin s : System State Own Instruction) (seen : List Event) : Prop :=
  ∃ t u earlier events later world i, machine.Run origin t earlier ∧ machine.step world i t = some (u, events) ∧
    machine.Run u s later ∧ seen = earlier ++ (events ++ later) ∧
    u.shared.immediate.threads < t.shared.immediate.threads ∧ u.shared.immediate.queue ≠ [] ∧
    s.threads.length = u.threads.length ∧ ∀ event ∈ later, event.stirs = false

theorem Deserted.step (deserted : Deserted origin s seen) (stepped : machine.step world i s = some (u, events))
    (same : u.threads.length = s.threads.length) (quiet : ∀ event ∈ events, event.stirs = false) :
    Deserted origin u (seen ++ events) := by
  obtain ⟨t', u', earlier, leaving, later, world', i', before, leaves, after, rfl, fewer, waiting, none, calm⟩ := deserted
  refine ⟨t', u', earlier, leaving, later ++ events, world', i', before, leaves, after.step world i stepped, ?_, fewer,
    waiting, same.trans none, fun event member => ?_⟩
  · simp only [List.append_assoc]
  · exact (List.mem_append.mp member).elim (calm event) (quiet event)

/-- What holds along every run. -/
structure Growing (origin s : System State Own Instruction) (seen : List Event) : Prop where
  tame : ∀ thread ∈ s.threads, Tame thread.todo.tail
  overseen : Overseen s.shared.immediate (fronts s.threads) (Deserted origin s seen)

private theorem fronts_perm {before after more : List (Thread Own Instruction)} (thread : Thread Own Instruction) :
    (fronts (before ++ thread :: (after ++ more))).Perm (fronts (thread :: more) ++ fronts (before ++ after)) := by
  have same : (before ++ thread :: (after ++ more)).Perm ((thread :: more) ++ (before ++ after)) := by
    refine List.perm_middle.trans (List.Perm.cons _ ?_)
    rw [← List.append_assoc]
    exact List.perm_append_comm
  unfold fronts
  rw [← List.filterMap_append]
  exact same.filterMap _

theorem Growing.step (growing : Growing origin s seen) (run : machine.Run origin s seen)
    (stepped : machine.step world i s = some (u, events)) : Growing origin u (seen ++ events) := by
  obtain ⟨before, own, instruction, rest, after, effect, threads, rfl, performed, rfl, rfl⟩ :=
    Machine.step_eq_some_iff.mp stepped
  have tame : Tame rest := growing.tame ⟨own, instruction :: rest⟩ (by simp [threads])
  constructor
  case tame =>
    intro thread member
    rcases mem_threads_iff.mp member with rfl | old | new
    · exact tame_of_perform tame performed _ List.mem_cons_self
    · exact growing.tame thread (threads ▸ mem_of_other old)
    · exact tame_of_perform tame performed thread (List.mem_cons_of_mem _ new)
  case overseen =>
    have beforehand := @fronts_perm before after [] ⟨own, instruction :: rest⟩
    have none : fronts [] = [] := rfl
    rw [List.append_nil, ← threads, fronts_cons, none, List.append_nil] at beforehand
    refine (overseen_of_perform tame performed (growing.overseen.perm beforehand) ?_ ?_).perm (fronts_perm _).symm
    · intro none quiet deserted
      refine deserted.step stepped ?_ quiet
      simp [threads, none]
    · intro fewer waiting
      exact ⟨s, _, seen, effect.events, [], world, before.length, run, stepped, .start, by rw [List.append_nil], fewer, waiting,
        rfl, by simp⟩

theorem immediate_of_initial {i : Instruction} (isInitial : i.initial = true) : immediate? i = none := by
  cases i <;> first | rfl | cases isInitial

theorem Growing.start (config : Config) (calls : List (List Call)) :
    Growing (withClients config calls) (withClients config calls) [] := by
  have apart : ∀ {thread}, thread ∈ (withClients config calls).threads → ∀ i ∈ thread.todo, immediate? i = none :=
    fun member i here => immediate_of_initial (initial_withClients member i here)
  constructor
  case tame =>
    intro thread member step here
    cases apart member _ (List.mem_of_mem_tail here)
  case overseen =>
    have none : fronts (withClients config calls).threads = [] := by
      refine List.filterMap_eq_nil_iff.mpr fun thread member => ?_
      cases isTodo : thread.todo with
      | nil => rfl
      | cons i rest => exact apart member i (isTodo ▸ List.mem_cons_self)
    rw [none]
    exact .start config.core config.max _

theorem Growing.run (run : machine.Run (withClients config calls) s seen) : Growing (withClients config calls) s seen := by
  induction run with
  | start => exact .start config calls
  | step world i run stepped ih => exact ih.step run stepped

/-- Without a worker being started there are never more of them. -/
theorem threads_le (run : machine.Run t s seen) : s.shared.immediate.max = t.shared.immediate.max ∧
    t.threads.length ≤ s.threads.length ∧
    (s.threads.length = t.threads.length → s.shared.immediate.threads ≤ t.shared.immediate.threads) := by
  induction run with
  | start => exact ⟨rfl, Nat.le_refl _, fun _ => Nat.le_refl _⟩
  | @step s u seen events world i run stepped ih =>
    obtain ⟨before, own, instruction, rest, after, effect, threads, rfl, performed, rfl, rfl⟩ :=
      Machine.step_eq_some_iff.mp stepped
    obtain ⟨max, more, bounded⟩ := ih
    obtain ⟨sameMax, fewer⟩ := limits_of_perform performed
    have counted : (before ++ effect.thread :: (after ++ effect.started)).length = s.threads.length + effect.started.length := by
      simp only [threads, List.length_append, List.length_cons]
      omega
    refine ⟨sameMax.trans max, counted ▸ Nat.le_add_right_of_le more, fun same => ?_⟩
    · replace same := counted.symm.trans same
      have none : effect.started.length = 0 := by omega
      exact Nat.le_trans (fewer (List.length_eq_zero_iff.mp none)) (bounded (by omega))

/-- Nobody is in the immediate pool: no job has been queued or taken without it having been decided whether to grow, and
every worker runs a job. -/
def Decided (s : System State Own Instruction) : Prop :=
  ∀ thread ∈ s.threads, ∀ step, thread.todo.head? = some (.immediate step) → ∃ job, step = .send job

/-- If a job waits behind workers that are all busy, the pool has all the workers it may have, unless a worker has left the
backlog and nobody has looked since. -/
theorem understaffed_iff (run : machine.Run (withClients config calls) s seen) (decided : Decided s)
    (waiting : s.shared.immediate.queue ≠ []) :
    s.shared.immediate.threads ≠ s.shared.immediate.max ↔ Deserted (withClients config calls) s seen := by
  have overseen := (Growing.run run).overseen
  constructor
  · intro fewer
    rcases overseen.seen waiting with full | ⟨step, isFront, sees⟩ | deserted
    · exact absurd full fewer
    · obtain ⟨thread, member, here⟩ := List.mem_filterMap.mp isFront
      obtain ⟨i, isHead, isStep⟩ := Option.bind_eq_some_iff.mp here
      cases i <;> simp at isStep
      subst isStep
      obtain ⟨job, rfl⟩ := decided thread member _ isHead
      cases sees
    · exact deserted
  · rintro ⟨t, u, earlier, leaving, later, world, i, before, leaves, after, -, fewer, -, none, -⟩ full
    have limit := (Growing.run before).overseen.limit
    obtain ⟨sameMax, -, bounded⟩ := threads_le after
    have kept := (threads_le (.step world i .start leaves)).1
    have bound := bounded none
    omega

end Run

/-- One client submits three jobs to a pool of at most two workers. The first job does not end. -/
def threeJobs (second : Script) : System State Own Instruction :=
  withClients ⟨1, 2, 1, 0, "pool"⟩ [[.submit .detached "first" [[.gate "closed"]], .submit .detached "second" [second],
    .submit .detached "third" [[]]]]

/-- The third job is queued when both workers are busy. -/
def queuesThird : List (World × Nat) :=
  (List.replicate 6 2 ++ List.replicate 8 3 ++ List.replicate 6 2 ++ List.replicate 8 4 ++ List.replicate 5 2).map
    (⟨0, false, []⟩, ·)

/-- The third job is queued when the second worker has waited in vain for the time it is kept alive, and then it leaves. -/
def leavesThird : List (World × Nat) :=
  (List.replicate 6 2 ++ List.replicate 8 3 ++ List.replicate 6 2 ++ List.replicate 12 4 ++ List.replicate 5 2 ++
    List.replicate 3 4).map (⟨0, true, []⟩, ·)

private theorem decided_of_heads {s : System State Own Instruction} (busy : s.threads.all fun thread =>
    (thread.todo.head?.bind immediate?).isNone) : Decided s := by
  intro thread member step isHead
  have none := List.all_eq_true.mp busy thread member
  rw [isHead] at none
  cases none

/-- A schedule after which a job waits while no thread is at any point of the immediate pool. -/
theorem backlog_of_follow {origin : System State Own Instruction} {schedule : List (World × Nat)} {job threads max : Nat}
    (ends : (machine.follow schedule (origin, [])).map (fun past =>
      (past.1.threads.all fun thread => (thread.todo.head?.bind immediate?).isNone, past.1.shared.immediate.queue.map Job.task,
        past.1.shared.immediate.threads, past.1.shared.immediate.max)) = some (true, [job], threads, max)) :
    ∃ s seen, machine.Run origin s seen ∧ Decided s ∧ s.shared.immediate.queue ≠ [] ∧
      s.shared.immediate.threads = threads ∧ s.shared.immediate.max = max := by
  obtain ⟨⟨s, seen⟩, followed, same⟩ := Option.map_eq_some_iff.mp ends
  simp only [Prod.mk.injEq] at same
  obtain ⟨busy, queue, threads, max⟩ := same
  refine ⟨s, seen, Machine.run_of_follow .start followed, decided_of_heads busy, ?_, threads, max⟩
  intro none
  simp [none] at queue

/-- Both workers are there, and nobody has deserted the job. -/
theorem backlog_of_full_pool : ∃ s seen, machine.Run (threeJobs [.gate "closed"]) s seen ∧ Decided s ∧
    s.shared.immediate.queue ≠ [] ∧ s.shared.immediate.threads = s.shared.immediate.max ∧
    ¬ Deserted (threeJobs [.gate "closed"]) s seen := by
  obtain ⟨s, seen, run, decided, waiting, threads, max⟩ :=
    @backlog_of_follow (threeJobs [.gate "closed"]) queuesThird 2 2 2 rfl
  have full : s.shared.immediate.threads = s.shared.immediate.max := threads.trans max.symm
  exact ⟨s, seen, run, decided, waiting, full, fun deserted => (understaffed_iff run decided waiting).mpr deserted full⟩

/-- The pool could grow, and nobody is going to look. -/
theorem backlog_of_deserted_pool : ∃ s seen, machine.Run (threeJobs []) s seen ∧ Decided s ∧
    s.shared.immediate.queue ≠ [] ∧ s.shared.immediate.threads = 1 ∧ s.shared.immediate.max = 2 :=
  @backlog_of_follow (threeJobs []) leavesThird 2 1 2 rfl

end Pool
end PeerSubstrate.Executor
