import PeerSubstrate.Proofs.Reactor.Desertion

/-!
# Faults of connections

A callback that fails is passed over: everything is seen and done as if it had returned (`forgiven_run`), and the worker goes on
(`Tended.goesOn`). This holds as long as no connection panics when it is asked what it wants to be watched for, which nothing
guards; after that nothing goes on at all (`isolated_or_deserted`).
-/

namespace PeerSubstrate.Reactor
open PeerSubstrate.Concurrency

/-- What there would be to do if no connection panicked. -/
def forgiveTodo (todo : List Instruction) : List Instruction := todo.filter (· != .panic)

def forgiveThread (thread : Thread Own Instruction) : Thread Own Instruction := ⟨thread.own, forgiveTodo thread.todo⟩

/-- The system in which every callback that is under way returns. -/
def forgive (s : System State Own Instruction) : System State Own Instruction := ⟨s.shared, s.threads.map forgiveThread⟩

/-- No callback fails. -/
def faultless (world : World) (instruction : Instruction) : Bool := world.fault.isNone && answers world instruction

private theorem forgiveTodo_append (todo rest : List Instruction) :
    forgiveTodo (todo ++ rest) = forgiveTodo todo ++ forgiveTodo rest :=
  List.filter_append ..

private theorem forgiveTodo_eq_self {todo : List Instruction} (calm : .panic ∉ todo) : forgiveTodo todo = todo :=
  List.filter_eq_self.mpr fun _ member => bne_iff_ne.mpr fun same => calm (same ▸ member)

section Perform

variable {world : World} {me : Nat} {s s' : State} {own own' : Own} {instruction : Instruction} {rest todo : List Instruction}
  {events : List Event} {effect : Effect State Own Instruction Event}

/-- The effect of the same instruction if every callback returns. -/
def forgiveEffect (effect : Effect State Own Instruction Event) : Effect State Own Instruction Event :=
  { effect with thread := forgiveThread effect.thread }

private theorem goOn_forgiven {todo' : List Instruction} (same : forgiveTodo todo = todo')
    (performed : goOn s own rest todo events = some effect) :
    goOn s own (forgiveTodo rest) todo' events = some (forgiveEffect effect) := by
  cases performed
  rw [goOn, forgiveEffect, forgiveThread, forgiveTodo_append, same]

/-- A panic ends at the guard of its call. -/
theorem perform_panic (caught : rest.head? = some .guarded) (performed : perform world me s own .panic rest = some effect) :
    effect = { shared := s, thread := ⟨own, rest⟩ } := by
  obtain ⟨behind, rfl⟩ := List.head?_eq_some_iff.mp caught
  have unwound : Instruction.unwind (.guarded :: behind) = .guarded :: behind := rfl
  simp only [perform, raise, unwound, Option.some.injEq] at performed
  exact performed.symm

/-- Whatever fails, the same is done and seen as if it had returned. -/
theorem perform_forgiven (calm : instruction ≠ .panic) (answered : answers world instruction = true)
    (performed : perform world me s own instruction rest = some effect) :
    perform { world with fault := none } me s own instruction (forgiveTodo rest) = some (forgiveEffect effect) := by
  cases instruction with
  | panic => exact absurd rfl calm
  | spawn worker =>
    cases performed
    rfl
  | retire =>
    cases performed
    rfl
  | call selectable token callback =>
    refine goOn_forgiven ?_ performed
    have calls : .panic ∉ world.calls.map Instruction.ofCall := by
      intro member
      obtain ⟨call, -, same⟩ := List.mem_map.mp member
      cases call <;> cases same
    rw [forgiveTodo_append, forgiveTodo_append, forgiveTodo_eq_self calls]
    split <;> rfl
  | tickAll =>
    refine goOn_forgiven (forgiveTodo_eq_self fun member => ?_) performed
    rcases List.mem_append.mp member with early | late
    · obtain ⟨token, connection, -, same⟩ := mem_ticks early
      cases same
    · cases List.mem_singleton.mp late
  | applyAll =>
    refine goOn_forgiven (forgiveTodo_eq_self fun member => ?_) performed
    rcases List.mem_append.mp member with early | late
    · obtain ⟨token, fate, same⟩ := mem_applications early
      cases same
    · cases List.mem_singleton.mp late
  | apply token fate =>
    refine goOn_forgiven (forgiveTodo_eq_self fun member => ?_) performed
    obtain ⟨selectable, interest, same⟩ := @mem_news _ _ _ _ member
    cases same
  | poll waits =>
    simp only [perform] at performed ⊢
    split at performed
    · cases performed
    · refine goOn_forgiven (forgiveTodo_eq_self ?_) performed
      simp
  | enroll selectable token =>
    obtain ⟨interest, asked⟩ := Option.isSome_iff_exists.mp answered
    simp only [perform, performEnroll, asked] at performed ⊢
    split at performed
    · cases ‹some _ = none›
    · exact goOn_forgiven rfl performed
    · split at performed <;> exact goOn_forgiven rfl performed
  | claim | regain =>
    by_cases free : s.owner = noWorker
    · simp only [perform, if_pos free] at performed ⊢
      exact goOn_forgiven rfl performed
    · simp only [perform, if_neg free] at performed ⊢
      exact goOn_forgiven rfl performed
  | lock | dispatch | attach | drain =>
    simp only [perform] at performed ⊢
    split at performed
    all_goals first | exact goOn_forgiven rfl performed | cases performed
  | decide =>
    by_cases needed : (!own.live.isEmpty || !s.registrations.isEmpty) = true
    · simp only [perform, performDecide, if_pos needed] at performed ⊢
      exact goOn_forgiven rfl performed
    · simp only [perform, performDecide, if_neg needed] at performed ⊢
      refine goOn_forgiven ?_ performed
      split <;> rfl
  | glance | seeRegistrations | inspect =>
    refine goOn_forgiven ?_ performed
    split <;> rfl
  | _ => exact goOn_forgiven rfl performed

/-- Nothing but the wait for readiness, and for the poller, keeps a thread from going on. -/
theorem exists_perform (inside : instruction ≠ .lock) (polled : world.polled.isSome = true) :
    ∃ effect, perform world me s own instruction rest = some effect := by
  cases instruction with
  | lock => exact absurd rfl inside
  | poll waits =>
    obtain ⟨reports, isPolled⟩ := Option.isSome_iff_exists.mp polled
    simp only [perform, isPolled]
    exact ⟨_, rfl⟩
  | enroll selectable token =>
    simp only [perform, performEnroll, raise]
    split
    · split <;> exact ⟨_, rfl⟩
    · exact ⟨_, rfl⟩
    · split <;> exact ⟨_, rfl⟩
  | claim | dispatch | attach | drain | regain =>
    simp only [perform]
    split <;> exact ⟨_, rfl⟩
  | panic =>
    simp only [perform, raise]
    split <;> exact ⟨_, rfl⟩
  | decide =>
    simp only [perform, performDecide]
    split <;> exact ⟨_, rfl⟩
  | _ => exact ⟨_, rfl⟩

end Perform

section Run

variable {idleIterations : Nat} {calls : List (List Call)} {s : System State Own Instruction} {seen : List Event}

private theorem forgive_callers (idleIterations : Nat) (calls : List (List Call)) :
    forgive (callers idleIterations calls) = callers idleIterations calls := by
  rw [forgive, callers, List.map_map]
  refine congrArg _ (List.map_congr_left fun calls _ => ?_)
  simp only [Function.comp_apply, forgiveThread]
  rw [forgiveTodo_eq_self]
  intro member
  obtain ⟨call, -, same⟩ := List.mem_map.mp member
  cases call <;> cases same

/-- To every run there is one in which no callback fails, that shows the same and leaves the same behind. -/
theorem forgiven_run (run : (machine.restrict answers).Run (callers idleIterations calls) s seen) :
    (machine.restrict faultless).Run (callers idleIterations calls) (forgive s) seen := by
  have both : Elected True s ∧ (machine.restrict faultless).Run (callers idleIterations calls) (forgive s) seen := by
    refine run.invariant ?_ ?_
    · rw [forgive_callers]
      exact ⟨.start _ _ _, .start⟩
    · rintro before own instruction rest after effect world shared seen ⟨elected, run⟩ performed
      obtain ⟨answered, performed⟩ := Machine.restrict_perform.mp performed
      refine ⟨elected.step (fun _ => answered) performed, ?_⟩
      have orderly := elected.orderly ⟨own, instruction :: rest⟩ (by simp)
      by_cases calm : instruction = .panic
      · subst calm
        rw [@perform_panic world _ _ _ _ _ orderly.1 performed, List.append_nil, List.append_nil]
        have same : forgiveThread ⟨own, .panic :: rest⟩ = forgiveThread ⟨own, rest⟩ := rfl
        rw [forgive, List.map_append, List.map_cons, same] at run
        rw [forgive, List.map_append, List.map_cons]
        exact run
      · obtain ⟨-, -, -, -, started, -, starts, -⟩ := orderly.continues (fun _ : True => answered) performed
        have kept : forgiveTodo (instruction :: rest) = instruction :: forgiveTodo rest :=
          List.filter_cons_of_pos (bne_iff_ne.mpr calm)
        have fresh : effect.started.map forgiveThread = effect.started := by
          rw [starts, List.map_map]
          exact List.map_congr_left fun number _ => rfl
        refine run.step { world with fault := none } before.length (Machine.step_eq_some_iff.mpr ?_)
        refine ⟨before.map forgiveThread, own, instruction, forgiveTodo rest, after.map forgiveThread, forgiveEffect effect,
          ?_, List.length_map _, ?_, ?_, rfl⟩
        · rw [forgive, List.map_append, List.map_cons, forgiveThread, kept]
        · exact Machine.restrict_perform.mpr ⟨Bool.and_eq_true_iff.mpr ⟨rfl, answered⟩, perform_forgiven calm answered performed⟩
        · rw [forgive, List.map_append, List.map_cons, List.map_append, fresh]
          rfl
  exact both.2

/-- The slot is empty, or it names a worker that is in office or about to be started. -/
def Staffed (s : System State Own Instruction) : Prop :=
  s.shared.owner = noWorker ∨ ∃ thread ∈ s.threads, .spawn s.shared.owner ∈ thread.todo ∨
    thread.own.worker = s.shared.owner ∧ (post? thread.todo).any Post.inOffice = true

private theorem Elected.staffed (elected : Elected True s) : Staffed s := by
  rcases elected.manned with ⟨-, empty⟩ | ⟨one, -⟩
  · exact .inl (empty trivial)
  · have officer : s.shared.owner ∈ s.threads.flatMap office := one ▸ List.mem_singleton_self _
    obtain ⟨thread, member, mine⟩ := List.mem_flatMap.mp officer
    exact .inr ⟨thread, member, mem_office_iff.mp mine⟩

private theorem Deserted.unstaffed (deserted : Deserted s) : ¬ Staffed s := by
  rintro (free | ⟨thread, member, starting | ⟨-, inOffice⟩⟩)
  · exact deserted.taken free
  · cases (deserted.outward thread member _ starting).2
  · have none := post?_of_outward fun i here => (deserted.outward thread member i here).1
    rw [none] at inOffice
    cases inOffice

/-- A worker goes round until it retires, whatever its connections do. -/
def GoesOn (s : System State Own Instruction) : Prop :=
  ∀ i worker, s.threads[i]? = some worker → inLoop worker = true →
    ∀ world : World, world.polled.isSome = true → world.interest.isSome = true →
      ∃ u events next, machine.step world i s = some (u, events) ∧ u.threads[i]? = some next ∧
        (inLoop next = true ∨ worker.todo = [.retire])

private theorem Tended.goesOn (tended : Tended True s) : GoesOn s := by
  intro i worker found inside world polled asked
  obtain ⟨shared, threads⟩ := s
  obtain ⟨before, after, rfl, rfl⟩ := split_of_getElem? found
  obtain ⟨own, todo⟩ := worker
  cases todo with
  | nil => cases inside
  | cons instruction rest =>
    have here : ⟨own, instruction :: rest⟩ ∈ before ++ ⟨own, instruction :: rest⟩ :: after := by simp
    have orderly := tended.elected.orderly _ here
    have begun : instruction ≠ .lock := by
      rintro rfl
      cases inside
    have answered : answers world instruction = true := by cases instruction <;> first | rfl | exact asked
    obtain ⟨effect, performed⟩ := @exists_perform world before.length shared own instruction rest begun polled
    have stint := orderly.stint begun (tended.stationed _ here).distinct performed
    refine ⟨_, _, effect.thread, Machine.step_eq_some_iff.mpr ⟨before, own, instruction, rest, after, effect, rfl, rfl, performed,
      rfl, rfl⟩, getElem?_middle _, ?_⟩
    rcases stint.stays inside with stays | ⟨-, ⟨rfl, -⟩ | silent⟩
    · exact .inl stays
    · exact .inr (congrArg _ (orderly.1 rfl))
    · cases answered.symm.trans silent

/-- As long as no connection panics when it is asked what it wants to be watched for, what the others do and are told is what it
would be if no callback failed, the slot is empty or names a worker, and a worker goes on. Otherwise the slot names nobody, and
from then on nothing is seen, nobody comes, and what is queued stays queued. -/
theorem isolated_or_deserted (run : machine.Run (callers idleIterations calls) s seen) :
    ((machine.restrict answers).Run (callers idleIterations calls) s seen ∧
      (machine.restrict faultless).Run (callers idleIterations calls) (forgive s) seen ∧ Staffed s ∧ GoesOn s) ∨
    (¬ (machine.restrict answers).Run (callers idleIterations calls) s seen ∧
      ∀ t more, machine.Run s t more → ¬ Staffed t ∧ t.threads.countP inLoop = 0 ∧ more = [] ∧
        s.shared.registrations <+: t.shared.registrations ∧ s.shared.changes <+: t.shared.changes) := by
  rcases answered_or_deserted id run with run | deserted
  · exact .inl ⟨run, forgiven_run run, (Elected.safe_run run).staffed, (Tended.safe_run run).goesOn⟩
  · refine .inr ⟨fun run => deserted.unstaffed (Elected.safe_run run).staffed, fun t more onwards => ?_⟩
    obtain ⟨still, silent, registrations, changes⟩ := deserted.run onwards
    refine ⟨still.unstaffed, ?_, silent, registrations, changes⟩
    refine List.countP_eq_zero.mpr fun thread member => ?_
    simp [inLoop, post?_of_outward fun i here => (still.outward thread member i here).1]

end Run

/-- The first connection panics when it is told that it has been attached. -/
def panicInPassing : List (World × Nat) :=
  (List.replicate 5 0 ++ List.replicate 4 1 ++ List.replicate 8 2).map (({} : World), ·) ++
    ({ fault := some .panic }, 2) :: (List.replicate 11 2).map (({} : World), ·)

/-- The second connection is attached all the same, as if the first one had not panicked. -/
theorem attached_after_panic : ∃ s, machine.Run twoCallers s
      [.attached 7 1, .called 7 1 .registered, .attached 8 2, .called 8 2 .registered] ∧
    (machine.restrict faultless).Run twoCallers (forgive s)
      [.attached 7 1, .called 7 1 .registered, .attached 8 2, .called 8 2 .registered] ∧ Staffed s ∧ GoesOn s := by
  have ends : ((machine.restrict answers).follow panicInPassing (twoCallers, [])).map Prod.snd =
      some [.attached 7 1, .called 7 1 .registered, .attached 8 2, .called 8 2 .registered] := by decide
  obtain ⟨⟨s, seen⟩, followed, rfl⟩ := Option.map_eq_some_iff.mp ends
  have answered := Machine.run_of_follow .start followed
  rcases isolated_or_deserted answered.of_restrict with ⟨-, forgiven, staffed, goesOn⟩ | ⟨never, -⟩
  · exact ⟨s, answered.of_restrict, forgiven, staffed, goesOn⟩
  · exact absurd answered never

/-- The first connection panics when it is asked what it wants to be watched for; then the second one is registered. -/
def panicWhenAsked : List (World × Nat) :=
  (List.replicate 5 0 ++ List.replicate 7 2).map (({} : World), ·) ++
    ({ interest := none }, 2) :: (List.replicate 4 1).map (({} : World), ·)

/-- All calls have returned, the second connection is still queued, and the slot names a worker that has ended. -/
theorem unstaffed_after_panic : ∃ s, machine.Run twoCallers s [] ∧ s.shared.registrations = [8] ∧
    s.shared.owner ≠ noWorker ∧ ¬ Staffed s ∧ ∀ thread ∈ s.threads, thread.todo = [] := by
  have ends : (machine.follow panicWhenAsked (twoCallers, [])).map
      (fun past => (past.1.threads.map Thread.todo, past.1.shared.registrations, past.1.shared.owner, past.2)) =
      some ([[], [], []], [8], 1, []) := by decide
  obtain ⟨⟨s, seen⟩, followed, same⟩ := Option.map_eq_some_iff.mp ends
  simp only [Prod.mk.injEq] at same
  obtain ⟨todos, registrations, owner, rfl⟩ := same
  have ended : ∀ thread ∈ s.threads, thread.todo = [] := by
    intro thread member
    have isTodo : thread.todo ∈ [[], [], []] := todos ▸ List.mem_map_of_mem member
    simpa using isTodo
  have taken : s.shared.owner ≠ noWorker := by
    rw [owner]
    exact Nat.one_ne_zero
  refine ⟨s, Machine.run_of_follow .start followed, registrations, taken, ?_, ended⟩
  rintro (free | ⟨thread, member, starting | ⟨-, inOffice⟩⟩)
  · exact taken free
  · rw [ended thread member] at starting
    cases starting
  · rw [ended thread member] at inOffice
    cases inOffice

end PeerSubstrate.Reactor
