import PeerSubstrate.Proofs.Executor.Departures

/-!
# What a lost task leaves behind

A repeating task reports that it is done when it has been cancelled, or when nobody is left who would run it, unless it has
been lost (`Reckoned`). So an overflow of a deadline shows in one of four ways: a call panics, a thread ends, a lost task does
not report that it is done, and when all threads have ended nothing in the queue runs any more (`ends_by_overflow`).
-/

namespace PeerSubstrate.Executor.Pool
open PeerSubstrate.Time PeerSubstrate.Concurrency
open Instruction (bears custody? lapse? unwind)

/-- How long a task waits for its first run, from its submission on. -/
def Channel.wait? : Channel → Option Duration
  | .after delay | .repeating delay _ => some delay
  | _ => none

/-- What a repeating task reports, by those who hold it and by what has become of it. -/
structure Reckoned (record : Option Record) (holders : Nat) (lost cancelled : Prop) : Prop where
  alone : lost → holders = 0
  met : lost ∨ cancelled → known record = 1
  done : ∀ state, record = some (.periodic state) → (state.done = true ↔ cancelled ∨ holders = 0 ∧ ¬ lost)

section Fares

variable {task : Nat} {record record' : Option Record} {held held' : List Custody} {events : List Event} {n n' : Nat}
  {lost cancelled : Prop}

/-- What is known of a task stays known. -/
theorem Fares.known_le (fares : Fares task record held record' held' events) : known record ≤ known record' := by
  cases fares <;> simp [known, Option.isSome_map]

/-- Only the task that a step concerns is cancelled by it. -/
theorem Fares.cancels (fares : Fares task record held record' held' events) {other : Nat} {mayInterrupt : Bool}
    (cancels : .cancelled other mayInterrupt ∈ events) : other = task ∧ known record' = 1 := by
  cases fares with
  | cancelled =>
    split at cancels
    · cases List.mem_singleton.mp cancels
      exact ⟨rfl, rfl⟩
    · cases cancels
  | stopped =>
    cases List.mem_singleton.mp cancels
    exact ⟨rfl, rfl⟩
  | _ => simp at cancels

/-- A repeating task is held by those only who run it again and again. -/
theorem Suits.of_periodic {kind : Custody} {state : PeriodicState} (suits : Suits kind (some (.periodic state))) :
    kind = .repeating := by
  cases kind <;> first | rfl | cases suits

private theorem periodic_of_mapPeriodic {f : PeriodicState → PeriodicState} {state : PeriodicState}
    (found : record.map (Record.mapPeriodic f) = some (.periodic state)) :
    ∃ old, record = some (.periodic old) ∧ f old = state := by
  obtain ⟨one, rfl, same⟩ := Option.map_eq_some_iff.mp found
  cases one with
  | periodic old => exact ⟨old, rfl, Record.periodic.inj same⟩
  | detached | oneOff => cases same

private theorem periodic_of_mapCell {f : TaskCell Int64 → TaskCell Int64} {state : PeriodicState}
    (found : record.map (Record.mapCell f) = some (.periodic state)) : record = some (.periodic state) := by
  obtain ⟨one, rfl, same⟩ := Option.map_eq_some_iff.mp found
  cases one with
  | oneOff => cases same
  | detached | periodic => exact congrArg some same

/-- Whoever ends a repeating task was the last one to hold it. -/
theorem Reckoned.released (reckoned : Reckoned record n lost cancelled) (once : n ≤ known record) (part : 1 ≤ n)
    (balance : n' + 1 = n) : n' = 0 ∧ ¬ lost := by
  have bit : known record ≤ 1 := Bool.toNat_le _
  refine ⟨by omega, fun isLost => ?_⟩
  have none := reckoned.alone isLost
  omega

private theorem Fares.reports (fares : Fares task record held record' held' events)
    (reckoned : Reckoned record n lost cancelled)
    (suits : ∀ kind ∈ held, Suits kind record) (once : n ≤ known record) (part : held.length ≤ n)
    (balance : n' + held.length = n + held'.length) {state : PeriodicState} (found : record' = some (.periodic state)) :
    state.done = true ↔ (cancelled ∨ ∃ mayInterrupt, .cancelled task mayInterrupt ∈ events) ∨ n' = 0 ∧ ¬ lost := by
  cases fares with
  | marked keeps =>
    obtain ⟨old, rfl, rfl⟩ := periodic_of_mapPeriodic found
    simpa [keeps, show n' = n from balance] using reckoned.done old rfl
  | submitted fresh =>
    have isNew : state.done = false := by
      cases found
      cases fresh
      rfl
    have unknown : ¬ (lost ∨ cancelled) := fun some => absurd (reckoned.met some) (by simp [known])
    rw [not_or] at unknown
    have held : n' ≠ 0 := by
      simp at balance
      omega
    simp [isNew, unknown, held]
  | accepted | picked | detached =>
    subst found
    cases (suits _ List.mem_cons_self).of_periodic
  | dropped =>
    cases periodic_of_mapCell found
    cases (suits _ List.mem_cons_self).of_periodic
  | began | skipped | stored | cancelled => cases found
  | fired => simpa [show n' = n from Nat.add_right_cancel balance] using reckoned.done state found
  | ended =>
    obtain ⟨old, rfl, rfl⟩ := periodic_of_mapPeriodic found
    simpa using .inr (reckoned.released once part balance)
  | ceased isDone =>
    cases found
    simpa [isDone] using .inr (reckoned.released once part balance)
  | stopped mayInterrupt =>
    cases found
    simp

private theorem Fares.reckoned (fares : Fares task record held record' held' events)
    (reckoned : Reckoned record n lost cancelled)
    (suits : ∀ kind ∈ held, Suits kind record) (once : n ≤ known record) (part : held.length ≤ n)
    (balance : n' + held.length = n + held'.length) :
    Reckoned record' n' lost (cancelled ∨ ∃ mayInterrupt, .cancelled task mayInterrupt ∈ events) := by
  have bit : known record' ≤ 1 := Bool.toNat_le _
  constructor
  case alone =>
    intro isLost
    have none := reckoned.alone isLost
    have past := reckoned.met (.inl isLost)
    have fewer := fares.bearers
    omega
  case met =>
    have met : lost ∨ cancelled → known record' = 1 := by
      intro past
      have isKnown := reckoned.met past
      have still := fares.known_le
      omega
    rintro (isLost | isCancelled | ⟨mayInterrupt, cancels⟩)
    · exact met (.inl isLost)
    · exact met (.inr isCancelled)
    · exact (fares.cancels cancels).2
  case done => exact fun state found => fares.reports reckoned suits once part balance found

end Fares

/-! ## Steps -/

section Step

variable {world : World} {before after : List (Thread Own Instruction)} {own : Own} {instruction : Instruction}
  {rest : List Instruction} {effect : Effect State Own Instruction Event} {shared : State} {task : Nat}

private theorem holders_eq (task : Nat) (s : System State Own Instruction) :
    holders task s = bearers (fun x => (holdings s).count x) task := (bearers_eq _ _).symm

/-- Unless a deadline cannot be represented, a step concerns one task and accounts for those who hold it. -/
theorem fares_of_perform (borne : Borne ⟨shared, before ++ ⟨own, instruction :: rest⟩ :: after⟩)
    (sound : Sound ⟨shared, before ++ ⟨own, instruction :: rest⟩ :: after⟩) (inTime : representable world instruction = true)
    (performed : perform world before.length shared own instruction rest = some effect) :
    ∃ subject held held', Fares subject shared.records[subject]? held effect.shared.records[subject]? held'
        (effect.events.filter Event.telling) ∧
      (∀ kind ∈ held, Suits kind shared.records[subject]?) ∧
      held.length ≤ holders subject ⟨shared, before ++ ⟨own, instruction :: rest⟩ :: after⟩ ∧
      holders subject ⟨effect.shared, before ++ effect.thread :: (after ++ effect.started)⟩ + held.length =
        holders subject ⟨shared, before ++ ⟨own, instruction :: rest⟩ :: after⟩ + held'.length ∧
      ∀ task, task ≠ subject → effect.shared.records[task]? = shared.records[task]? ∧
        holders task ⟨effect.shared, before ++ effect.thread :: (after ++ effect.started)⟩ =
          holders task ⟨shared, before ++ ⟨own, instruction :: rest⟩ :: after⟩ := by
  obtain ⟨-, -, new, same, changes⟩ := (borne.orderly _ mem_middle).continues inTime
    (fun _ _ _ stores found => sound.running_next stores found) performed
  obtain ⟨others, todoBefore, todoAfter⟩ := @todo_parts before after own instruction rest effect shared _ _ _
    weighs_custody same
  obtain ⟨subject, held, held', accounts⟩ := changes.accounts
  have heldBefore := @Stock.count_held_of_perm shared.stock _ _ _ todoBefore
  have heldAfter := @Stock.count_held_of_perm effect.shared.stock _ _ _ todoAfter
  have part := (accounts.moved heldBefore heldAfter).1
  simp only [holders_eq]
  obtain ⟨fewer, balance, apart⟩ := accounts.bearers heldBefore heldAfter
  refine ⟨subject, held, held', accounts.fares, fun kind member => ?_, fewer, balance, fun task others => ?_⟩
  · exact borne.suits subject kind (Nat.lt_of_lt_of_le (List.count_pos_iff.mpr member) (part kind))
  · exact ⟨accounts.elsewhere task others, apart task others⟩

/-- The thread that loses a task was the only one to hold it. -/
theorem holders_of_lapse (entry : Scheduled.Entry Periodic) (own own' : Own) :
    holders task ⟨shared, before ++ ⟨own', [.exit]⟩ :: after⟩ + (entry.task.task == task).toNat =
      holders task ⟨shared, before ++ ⟨own, [.renew entry, .take, .exit]⟩ :: after⟩ := by
  have moved := @holders_of_thread before after shared task shared ⟨rfl, rfl, rfl⟩ ⟨own, [.renew entry, .take, .exit]⟩
    ⟨own', [.exit]⟩
  have mine : [Instruction.renew entry, .take, .exit].countP (bears task) = (entry.task.task == task).toNat := by
    rw [countP_cons_toNat]
    rfl
  rw [mine] at moved
  exact moved

/-- A thread has lost the task, its next deadline being one that cannot be represented. -/
def Lost (task : Nat) (seen : List (Nat × Sighting)) : Prop := ∃ i, (i, .lapsed task) ∈ seen

/-- A cancellation of the task has taken effect. -/
def Cancelled (task : Nat) (seen : List (Nat × Sighting)) : Prop :=
  ∃ i mayInterrupt, (i, .event (.cancelled task mayInterrupt)) ∈ seen

variable {seen : List (Nat × Sighting)} {o : Nat}

private theorem lost_append : Lost task (seen ++ (sightings world shared own instruction effect.events).map (o, ·)) ↔
    Lost task seen ∨ lapse? world instruction = some task := by
  simp only [Lost, mem_attested, mem_sightings_lapsed, exists_or, exists_eq_left]

private theorem cancelled_append : Cancelled task (seen ++ (sightings world shared own instruction effect.events).map (o, ·)) ↔
    Cancelled task seen ∨ ∃ mayInterrupt, .cancelled task mayInterrupt ∈ effect.events := by
  simp only [Cancelled, mem_attested, mem_sightings_event, exists_or, exists_and_left, exists_eq_left]

/-- What is known of a task along every run. -/
def Reported (seen : List (Nat × Sighting)) (s : System State Own Instruction) (task : Nat) : Prop :=
  Reckoned s.shared.records[task]? (holders task s) (Lost task seen) (Cancelled task seen)

theorem Reported.step (reported : Reported seen ⟨shared, before ++ ⟨own, instruction :: rest⟩ :: after⟩ task)
    (borne : Borne ⟨shared, before ++ ⟨own, instruction :: rest⟩ :: after⟩)
    (sound : Sound ⟨shared, before ++ ⟨own, instruction :: rest⟩ :: after⟩) (looped : Looped (instruction :: rest))
    (performed : perform world before.length shared own instruction rest = some effect) :
    Reported (seen ++ (sightings world shared own instruction effect.events).map (before.length, ·))
      ⟨effect.shared, before ++ effect.thread :: (after ++ effect.started)⟩ task := by
  unfold Reported
  rw [propext lost_append, propext cancelled_append]
  cases lapses : lapse? world instruction with
  | none =>
    -- The step concerns one task, and accounts for those who hold it.
    obtain ⟨subject, held, held', fares, suits, part, balance, apart⟩ := fares_of_perform borne sound
      (Instruction.lapse?_eq_none_iff.mp lapses) performed
    have told : ∀ mayInterrupt, .cancelled task mayInterrupt ∈ effect.events.filter Event.telling ↔
        .cancelled task mayInterrupt ∈ effect.events := fun _ => by simp
    by_cases isSubject : task = subject
    · subst isSubject
      have reckoned := fares.reckoned reported suits (borne.holders_le task) part balance
      simpa only [told, reduceCtorEq, or_false] using reckoned
    · have elsewhere : ∀ mayInterrupt, .cancelled task mayInterrupt ∉ effect.events := fun mayInterrupt cancels =>
        isSubject (fares.cancels ((told mayInterrupt).mpr cancels)).1
      obtain ⟨sameRecord, sameHolders⟩ := apart task isSubject
      simp only [elsewhere, exists_false, reduceCtorEq, or_false]
      rw [sameRecord, sameHolders]
      exact reported
  | some lost =>
    -- Nothing changes but the thread, which was the only one to hold the task.
    obtain ⟨entry, rfl, rfl, rfl, rfl⟩ := lapse_of_perform looped lapses performed
    have single := borne.holders_le_one task
    have fewer := @holders_of_lapse before after shared task entry own { own with outcome := .error Instant.overflowMessage }
    simp only [List.append_nil, List.not_mem_nil, exists_false, or_false, Option.some.injEq]
    by_cases isLost : entry.task.task = task
    · obtain ⟨state, found⟩ := borne.repeats todo_mem (congrArg (fun task => some (Custody.repeating, task)) isLost)
      rw [isLost, beq_self_eq_true, Bool.toNat_true] at fewer
      refine ⟨fun _ => by omega, fun _ => ?_, fun state found => ?_⟩
      · rw [found]
        rfl
      · have past := reported.done state found
        have held : holders task ⟨shared, before ++ ⟨own, [.renew entry, .take, .exit]⟩ :: after⟩ ≠ 0 := by omega
        simpa [held, isLost] using past
    · rw [beq_eq_false_iff_ne.mpr isLost, Bool.toNat_false, Nat.add_zero] at fewer
      rw [fewer]
      simp only [isLost, or_false]
      exact reported

/-- A call to the pool is performed at once. It panics if the first deadline of its task cannot be represented, and adds a task
otherwise. -/
theorem submit_panics_iff {channel : Channel} {id : String} {scripts : List Script} (world : World) (s : State) (me : Nat) :
    ∃ effect, perform world me s own (.submit channel id scripts) rest = some effect ∧
      (effect.thread = ⟨{ own with outcome := .error Instant.overflowMessage }, unwind rest⟩ ∧ effect.shared = s ↔
        ∃ delay, channel.wait? = some delay ∧ world.now.after? delay = none) := by
  have longer : ∀ {s' : State}, s'.records.length = s.records.length + 1 → s' ≠ s := by
    rintro s' more rfl
    omega
  cases channel with
  | detached | immediate | dedicated | atInstant =>
    refine ⟨_, rfl, iff_of_false (fun panics => longer ?_ panics.2) (by simp [Channel.wait?])⟩
    simp [State.add, State.submitOnce, State.nameHandle]
  | after delay | repeating delay =>
    simp only [perform, performSubmit, Channel.wait?, Option.some.injEq, exists_eq_left']
    cases due : world.now.after? delay with
    | none => exact ⟨_, rfl, iff_of_true ⟨rfl, rfl⟩ rfl⟩
    | some deadline =>
      refine ⟨_, rfl, iff_of_false (fun panics => longer ?_ panics.2) (Option.some_ne_none _)⟩
      simp [State.add, State.submitOnce, State.nameHandle]

end Step

section Run

variable {config : Config} {calls : List (List Call)} {s t : System State Own Instruction} {past later : List Event}
  {seen : List (Nat × Sighting)} {task : Nat}

theorem Reported.start (config : Config) (calls : List (List Call)) (task : Nat) :
    Reported [] (withClients config calls) task := by
  refine ⟨?_, ?_, fun state found => ?_⟩
  · rintro ⟨i, member⟩
    cases member
  · rintro (⟨i, member⟩ | ⟨i, mayInterrupt, member⟩) <;> cases member
  · cases found

theorem Reported.run (run : (machine.watch sightings).attributed.Run (withClients config calls) s seen) (task : Nat) :
    Reported seen s task := by
  have both : Attended config s seen ∧ Reported seen s task := by
    refine run.attested ⟨.start config calls, .start config calls task⟩ fun past both performed => ?_
    obtain ⟨attended, reported⟩ := both
    have borne := Borne.run past
    have sound := (Sound.start config calls).run past
    exact ⟨attended.step (borne.orderly _ mem_middle) performed,
      reported.step borne sound (attended.looped _ mem_middle) performed⟩
  exact both.2

/-- A task that is given up never begins again. -/
theorem GivenUp.never (run : machine.Run (withClients config calls) s past) (givenUp : GivenUp task s)
    (more : machine.Run s t later) : GivenUp task t ∧ .began task ∉ later := by
  refine more.along ⟨givenUp, List.not_mem_nil⟩ fun more past performed => ?_
  obtain ⟨givenUp, unrun⟩ := past
  have borne := Borne.run (run.trans more)
  have sound := (Sound.start config calls).run (run.trans more)
  refine ⟨givenUp.step borne sound performed, fun began => ?_⟩
  rcases List.mem_append.mp began with past | now
  · exact unrun past
  · obtain ⟨mine, noPart⟩ := bears_of_began borne performed now
    exact givenUp.not_run borne todo_mem mine noPart

/-- What comes of deadlines that cannot be represented. A call panics if its task waits until such a deadline, and adds a task
otherwise. A scheduled thread ends only after the pool has been shut down, or when the next deadline of the task it has run is
one; nobody holds that task any more. A repeating task reports that it is done unless it has not been cancelled and either
somebody still holds it or it has been lost in this way, and when nobody holds it, it never begins again. When all scheduled
threads have ended, no task in the queue begins any more, and each of them stays there until the pool is shut down. -/
theorem ends_by_overflow (run : (machine.watch sightings).attributed.Run (withClients config calls) s seen) :
    (∀ {i own channel id scripts rest}, s.threads[i]? = some ⟨own, .submit channel id scripts :: rest⟩ → ∀ world,
      ∃ u events, machine.step world i s = some (u, events) ∧
        (u.threads[i]? = some ⟨{ own with outcome := .error Instant.overflowMessage }, unwind rest⟩ ∧ u.shared = s.shared ↔
          ∃ delay, channel.wait? = some delay ∧ world.now.after? delay = none)) ∧
    (∀ i ∈ scheduledThreads config, Left s i → s.shared.scheduled.stopped = true ∨ ∃ task, (i, .lapsed task) ∈ seen) ∧
    (∀ i task, (i, .lapsed task) ∈ seen → i ∈ scheduledThreads config ∧ Left s i ∧ holders task s = 0) ∧
    (∀ task state, s.shared.periodic? task = some state →
      (state.done = false ↔ ¬ Cancelled task seen ∧ (0 < holders task s ∨ Lost task seen)) ∧
      (holders task s = 0 → ∀ {t later}, machine.Run s t later → .began task ∉ later)) ∧
    ((∀ i ∈ scheduledThreads config, Left s i) → ∀ {t later}, machine.Run s t later →
      (∀ i ∈ scheduledThreads config, Left t i) ∧ ∀ entry ∈ s.shared.scheduled.queue,
        .began entry.task.number ∉ later ∧ (t.shared.scheduled.stopped = true ∨ entry ∈ t.shared.scheduled.queue)) := by
  obtain ⟨past, plain⟩ := run.of_attributed.of_watch
  have attended := Attended.run run
  refine ⟨fun {i own channel id scripts rest} found world => ?_, fun i isScheduled left => ?_, fun i task lapsed => ?_,
    fun task state found => ⟨?_, fun none t later more => ?_⟩, fun left t later more => ⟨?_, fun entry queued => ?_⟩⟩
  · obtain ⟨before, after, threads, rfl⟩ := split_of_getElem? found
    obtain ⟨effect, performed, panics⟩ := @submit_panics_iff own rest channel id scripts world s.shared before.length
    refine ⟨_, _, Machine.step_eq_some_iff.mpr
      ⟨before, own, _, rest, after, effect, threads, rfl, performed, rfl, rfl⟩, ?_⟩
    rw [getElem?_middle, Option.some.injEq]
    exact panics
  · exact (attended.stays i isScheduled).elim (fun looking => absurd looking left.idle) And.right
  · obtain ⟨isScheduled, left⟩ := attended.lapsed lapsed
    exact ⟨isScheduled, left, (Reported.run run task).alone ⟨i, lapsed⟩⟩
  · have reported := (Reported.run run task).done state (periodic?_eq_some_iff.mp found)
    rw [← Bool.not_eq_true, reported, not_or, not_and_or, not_not, Nat.pos_iff_ne_zero]
  · refine (GivenUp.never plain (.inr ⟨none, ?_⟩) more).2
    rw [periodic?_eq_some_iff.mp found]
    rfl
  · exact fun i isScheduled => (left i isScheduled).run more
  · have stranded := Stranded.run plain (attended.unserved left) queued more
    exact ⟨stranded.unrun, stranded.waits.symm.imp_left And.left⟩

end Run

/-- A client submits a repeating task with this schedule, another one, and a task whose delay is the longest there is. -/
def overflowingClient (schedule : Repeat) : System State Own Instruction :=
  withClients ⟨1, 1, 1, 0, "pool"⟩ [[.submit (.repeating 0 schedule) "first" [[]],
    .submit (.repeating 0 (.fixedRate 5)) "second" [[]], .submit (.after Duration.longest) "third" [[]]]]

/-- The client submits both repeating tasks, and the worker runs the first one. -/
def firstRuns : List (World × Nat) := (List.replicate 6 2 ++ List.replicate 8 1).map (⟨0, false, []⟩, ·)

/-- The first task is lost and does not report that it is done, the second one stays in the queue for good, and the third one is
not even submitted. -/
theorem thread_ends_with_its_task : ∃ s seen,
    (machine.watch sightings).attributed.Run (overflowingClient (.fixedRate Duration.longest)) s seen ∧
    s.shared.scheduled.stopped = false ∧ Left s 1 ∧ s.shared.periodic? 0 = some { runs := 1 } ∧ Lost 0 seen ∧
    ¬ Cancelled 0 seen ∧ (∀ {t later}, machine.Run s t later → .began 0 ∉ later ∧ .began 1 ∉ later) ∧
    ∃ u events, machine.step ⟨0, false, []⟩ 2 s = some (u, events) ∧ u.shared = s.shared := by
  have ends : ((machine.watch sightings).attributed.follow firstRuns
      (overflowingClient (.fixedRate Duration.longest), [])).map (fun past => (past.2, past.1.shared.scheduled.stopped,
        past.1.shared.scheduled.queue, past.1.shared.periodic? 0, past.1.threads[2]?)) =
      some ([(1, .event (.dequeued 0 0 0 0)), (1, .event (.began 0)), (1, .event (.ended 0 true)), (1, .lapsed 0)], false,
        [⟨0, 1, .periodic ⟨1, .fixedRate 5, [[]]⟩⟩], some { runs := 1 },
        some ⟨{ name := "" }, [.submit (.after Duration.longest) "third" [[]]]⟩) := rfl
  obtain ⟨⟨s, seen⟩, followed, same⟩ := Option.map_eq_some_iff.mp ends
  simp only [Prod.mk.injEq] at same
  obtain ⟨told, going, queue, isKnown, client⟩ := same
  have run := Machine.run_of_follow .start followed
  obtain ⟨panics, -, lapsed, tasks, stranded⟩ := ends_by_overflow run
  have lost : (1, .lapsed 0) ∈ seen := by simp [told]
  obtain ⟨-, left, none⟩ := lapsed 1 0 lost
  have everyone : ∀ i ∈ scheduledThreads ⟨1, 1, 1, 0, "pool"⟩, Left s i := by
    intro i isScheduled
    cases List.mem_singleton.mp isScheduled
    exact left
  refine ⟨s, seen, run, going, left, isKnown, ⟨1, lost⟩, ((tasks 0 _ isKnown).1.mp rfl).1, fun more => ⟨?_, ?_⟩, ?_⟩
  · exact (tasks 0 _ isKnown).2 none more
  · exact ((stranded everyone more).2 _ (queue ▸ List.mem_singleton_self _)).1
  · obtain ⟨u, events, stepped, panics⟩ := panics client ⟨0, false, []⟩
    exact ⟨u, events, stepped, (panics.mpr ⟨Duration.longest, rfl, rfl⟩).2⟩

/-- A call panics, a thread has ended although nobody has shut the pool down, and a task that never runs again does not report
that it is done. -/
theorem overflow_in_every_place : ∃ s seen, machine.Run (overflowingClient (.fixedDelay Duration.longest)) s seen ∧
    s.threads[2]? = some ⟨{ name := "", outcome := .error Instant.overflowMessage }, []⟩ ∧
    s.shared.scheduled.stopped = false ∧ Left s 1 ∧ s.shared.periodic? 0 = some { runs := 1 } ∧
    ∀ {t later}, machine.Run s t later → .began 0 ∉ later := by
  have ends : (machine.follow (firstRuns ++ [(⟨0, false, []⟩, 2)]) (overflowingClient (.fixedDelay Duration.longest), [])).map
      (fun past => (past.1.threads[2]?, past.1.shared.scheduled.stopped, past.1.threads[1]?.map (·.todo),
        past.1.shared.periodic? 0, holders 0 past.1)) =
      some (some ⟨{ name := "", outcome := .error Instant.overflowMessage }, []⟩, false, some [.exit],
        some { runs := 1 }, 0) := rfl
  obtain ⟨⟨s, seen⟩, followed, same⟩ := Option.map_eq_some_iff.mp ends
  simp only [Prod.mk.injEq] at same
  obtain ⟨panicked, going, worker, isKnown, none⟩ := same
  have run := Machine.run_of_follow .start followed
  obtain ⟨thread, found, isTodo⟩ := Option.map_eq_some_iff.mp worker
  refine ⟨s, seen, run, panicked, going, ⟨thread, found, .inl isTodo⟩, isKnown, fun more => ?_⟩
  refine (GivenUp.never run (.inr ⟨none, ?_⟩) more).2
  rw [periodic?_eq_some_iff.mp isKnown]
  rfl

end PeerSubstrate.Executor.Pool
