import PeerSubstrate.Executor.TaskHandle
import PeerSubstrate.Proofs.Executor.TaskRuns

/-!
# What calls on a handle are told

Whatever has been seen of a task stays true of its cell (`Event.lasts`), and what is seen next is true when it is seen
(`Event.fits`), so that some events never come before others (`Event.mayPrecede`). A result that is there is the only
one ever, and a join takes it (`handle_told`). The cell of a one-off task in a pool comes to nothing that it could not come
to here (`reachable_of_pool`).
-/

namespace PeerSubstrate.Executor.TaskHandle
open PeerSubstrate.Concurrency

variable {α : Type}

/-- How far the end of a run has come: before the look for a cancellation, or behind it with the result that is going
to be stored. -/
abbrev Stage (α : Type) := Option (Except TaskError α)

/-- The end of a run. -/
def Instruction.stage? : Instruction α → Option (Stage α)
  | .duty _ => none
  | .conclude => some none
  | .store result => some (some result)

/-- All the runs that have begun and not ended. -/
def stages (todo : List (Instruction α)) : List (Stage α) := todo.filterMap Instruction.stage?

private theorem stages_append (one two : List (Instruction α)) : stages (one ++ two) = stages one ++ stages two :=
  List.filterMap_append

/-- What a step does to the cell, to the handle and to the runs that its thread has to end. A run is `refused` if the
task is not pending any more; what is `told` is what the cell is like. -/
inductive Moves : Shared α → List (Stage α) → Shared α → List (Stage α) → List (Event α) → Prop
  | refused {s flight} : Moves s flight s flight []
  | began {s cell flight} : s.cell.begin? = some cell → Moves s flight { s with cell } (none :: flight) [.began]
  | concluded {s flight} (outcome : Except String α) :
      Moves s (none :: flight) s (some (s.cell.verdict outcome) :: flight) []
  | stored {s result flight} : Moves s (some result :: flight) { s with cell := s.cell.finish result } flight []
  | dropped {s flight} : Moves s flight { s with cell := s.cell.abandon } flight [.dropped (isPending s.cell)]
  | cancelled {s flight} (mayInterrupt : Bool) : s.held = true →
      Moves s flight { s with cell := (s.cell.cancel mayInterrupt).2 } flight [.cancelled (s.cell.cancel mayInterrupt).1]
  | told {s flight event} : s.held = true →
      event = .toldDone s.cell.isDone ∨ event = .toldCancelled s.cell.cancelled ∨ event = .waited s.cell.isFinished →
      Moves s flight s flight [event]
  | joined {s flight result cell} : s.held = true → s.cell.join? = some (result, cell) →
      Moves s flight { cell, held := false } flight [.joined result]

private theorem moves_of_performCall {s : Shared α} {rest : List (Instruction α)} {expired : Bool} {call : Call}
    {effect : Effect (Shared α) Unit (Instruction α) (Event α)} (held : s.held = true)
    (performed : performCall s rest expired call = some effect) : effect.started = [] ∧
      Moves s (stages rest) effect.shared (stages effect.thread.todo) effect.events := by
  cases call with
  | cancel mayInterrupt =>
    cases performed
    exact ⟨rfl, .cancelled mayInterrupt held⟩
  | isDone =>
    cases performed
    exact ⟨rfl, .told held (.inl rfl)⟩
  | isCancelled =>
    cases performed
    exact ⟨rfl, .told held (.inr (.inl rfl))⟩
  | wait =>
    simp only [performCall] at performed
    split at performed
    · cases performed
      exact ⟨rfl, .told held (.inr (.inr rfl))⟩
    · cases performed
  | join =>
    obtain ⟨⟨result, cell⟩, joins, returned⟩ := Option.bind_eq_some_iff.mp performed
    cases returned
    exact ⟨rfl, .joined held joins⟩

private theorem moves_of_perform {world : World α} {me : Nat} {s : Shared α} {own : Unit} {instruction : Instruction α}
    {rest : List (Instruction α)} {effect : Effect (Shared α) Unit (Instruction α) (Event α)}
    (performed : machine.perform world me s own instruction rest = some effect) : effect.started = [] ∧
      Moves s (stages (instruction :: rest)) effect.shared (stages effect.thread.todo) effect.events := by
  rw [machine] at performed
  cases instruction with
  | conclude =>
    cases performed
    exact ⟨rfl, .concluded world.outcome⟩
  | store result =>
    cases performed
    exact ⟨rfl, .stored⟩
  | duty duty =>
    cases duty with
    | run =>
      simp only [perform] at performed
      split at performed
      · next began =>
        cases performed
        exact ⟨rfl, .began began⟩
      · cases performed
        exact ⟨rfl, .refused⟩
    | drop =>
      cases performed
      exact ⟨rfl, .dropped⟩
    | call call =>
      simp only [perform] at performed
      split at performed
      · next held =>
        have moves := moves_of_performCall held performed
        exact moves
      · cases performed

/-- What the cell is like when this is seen next. -/
def Event.fits (cell : TaskCell α) : Event α → Prop
  | .began => cell.state = .pending
  | .dropped pending => pending = true ↔ cell.state = .pending
  | .cancelled effective => effective = false ↔ ∃ result, cell.state = .finished result
  | .toldDone yes => cell.isDone = yes
  | .toldCancelled yes => cell.cancelled = yes
  | .waited finished => cell.isFinished = finished
  | .joined result => cell.state = .finished result

/-- What the cell is like from then on. -/
def Event.lasts (cell : TaskCell α) : Event α → Prop
  | .began | .cancelled _ => cell.state ≠ .pending
  | .dropped pending => cell.state ≠ .pending ∧ (pending = true → cell.isFinished = true)
  | .toldDone yes => yes = true → cell.isDone = true
  | .toldCancelled yes => yes = true → cell.cancelled = true
  | .waited finished => finished = true → cell.isFinished = true
  | .joined _ => cell.state = .taken

/-- One event may be seen before the other. The closure is called once, and neither after a cancellation nor after the
job was dropped instead; and what has come to be true is never told to be false. -/
def Event.mayPrecede : Event α → Event α → Prop
  | .began, .began | .cancelled true, .began | .dropped true, .began | .began, .dropped true => False
  | .toldDone true, .toldDone false | .toldCancelled true, .toldDone false | .waited true, .toldDone false => False
  | .toldCancelled true, .toldCancelled false => False
  | .joined _, .joined _ => False
  | _, _ => True

private theorem Event.mayPrecede_of {cell : TaskCell α} {one two : Event α} (lasts : one.lasts cell) (fits : two.fits cell) :
    one.mayPrecede two := by
  unfold mayPrecede
  split
  · exact lasts fits
  · exact lasts fits
  · exact lasts.1 fits
  · exact lasts (fits.mp rfl)
  · exact absurd ((lasts rfl).symm.trans fits) Bool.noConfusion
  · have done : cell.isDone = true := by simp [TaskCell.isDone, lasts rfl]
    exact absurd (done.symm.trans fits) Bool.noConfusion
  · have done : cell.isDone = true := by simp [TaskCell.isDone, lasts rfl]
    exact absurd (done.symm.trans fits) Bool.noConfusion
  · exact absurd ((lasts rfl).symm.trans fits) Bool.noConfusion
  · exact absurd (lasts.symm.trans fits) nofun
  · trivial

/-! ## What every step preserves -/

/-- A pending task is not marked and a running one runs once; nothing else is in flight. The handle is there until the
result has been taken, and no run reports a shutdown. -/
def Accounted (s : Shared α) (flight : List (Stage α)) : Prop :=
  match s.cell.state with
  | .pending => flight = [] ∧ s.cell.cancelled = false ∧ s.held = true
  | .running => (∃ stage, flight = [stage] ∧ stage ≠ some (.error .shutdown)) ∧ s.held = true
  | .finished _ => flight = [] ∧ s.held = true
  | .taken => flight = [] ∧ s.held = false

section Moves

variable {s s' : Shared α} {flight flight' before after : List (Stage α)} {events : List (Event α)}

/-- A run that has to end belongs to a task that is running, and is the only one of it. -/
theorem Accounted.running {stage : Stage α} (accounted : Accounted s (before ++ (stage :: flight ++ after))) :
    s.cell.state = .running ∧ s.held = true ∧ stage ≠ some (.error .shutdown) ∧ before = [] ∧ flight = [] ∧ after = [] := by
  have some : before ++ (stage :: flight ++ after) ≠ [] := by simp
  unfold Accounted at accounted
  split at accounted
  · exact absurd accounted.1 some
  · next running =>
    obtain ⟨⟨other, one, noShutdown⟩, held⟩ := accounted
    cases before with
    | nil =>
      obtain ⟨rfl, rest⟩ := List.cons.inj one
      obtain ⟨rfl, rfl⟩ := List.append_eq_nil_iff.mp rest
      exact ⟨running, held, noShutdown, rfl, rfl, rfl⟩
    | cons first before => simp at one
  · exact absurd accounted.1 some
  · exact absurd accounted.1 some

private theorem verdict_ne_shutdown (cell : TaskCell α) (outcome : Except String α) :
    cell.verdict outcome ≠ .error .shutdown := by
  unfold TaskCell.verdict
  split
  · nofun
  · cases outcome <;> nofun

private theorem Moves.accounted (moves : Moves s flight s' flight' events)
    (accounted : Accounted s (before ++ (flight ++ after))) :
    Accounted s' (before ++ (flight' ++ after)) := by
  obtain ⟨⟨state, mark, interrupt⟩, held⟩ := s
  cases moves with
  | refused => exact accounted
  | told => exact accounted
  | began began =>
    cases state with
    | pending =>
      cases began
      obtain ⟨empty, -, here⟩ := accounted
      obtain ⟨rfl, rest⟩ := List.append_eq_nil_iff.mp empty
      obtain ⟨rfl, rfl⟩ := List.append_eq_nil_iff.mp rest
      exact ⟨⟨none, rfl, nofun⟩, here⟩
    | running | finished | taken => cases began
  | concluded outcome =>
    obtain ⟨running, here, -, rfl, rfl, rfl⟩ := accounted.running
    cases running
    exact ⟨⟨_, rfl, fun same => verdict_ne_shutdown _ _ (Option.some.inj same)⟩, here⟩
  | stored =>
    obtain ⟨-, here, -, rfl, rfl, rfl⟩ := accounted.running
    exact ⟨rfl, here⟩
  | dropped =>
    cases state with
    | pending => exact ⟨accounted.1, accounted.2.2⟩
    | running | finished | taken => exact accounted
  | cancelled mayInterrupt =>
    cases state with
    | pending => exact ⟨accounted.1, accounted.2.2⟩
    | running | finished | taken => exact accounted
  | joined here joins =>
    cases state with
    | pending | running => cases joins
    | finished =>
      cases joins
      exact ⟨accounted.1, rfl⟩
    | taken => exact absurd (accounted.2.symm.trans here) Bool.noConfusion

/-- What a step shows is true when it is seen, -/
theorem Moves.fits (moves : Moves s flight s' flight' events) (accounted : Accounted s (before ++ (flight ++ after))) :
    ∀ event ∈ events, event.fits s.cell := by
  obtain ⟨⟨state, mark, interrupt⟩, held⟩ := s
  cases moves with
  | refused => nofun
  | concluded => nofun
  | stored => nofun
  | began began =>
    refine List.forall_mem_singleton.mpr ?_
    cases state with
    | pending => rfl
    | running | finished | taken => cases began
  | dropped =>
    refine List.forall_mem_singleton.mpr ?_
    cases state <;> simp [Event.fits, isPending]
  | cancelled mayInterrupt here =>
    refine List.forall_mem_singleton.mpr ?_
    cases state with
    | pending | running | finished => simp [Event.fits, TaskCell.cancel]
    | taken => exact absurd (accounted.2.symm.trans here) Bool.noConfusion
  | told here kind =>
    refine List.forall_mem_singleton.mpr ?_
    rcases kind with rfl | rfl | rfl <;> rfl
  | joined here joins =>
    refine List.forall_mem_singleton.mpr ?_
    cases state with
    | pending | running => cases joins
    | finished =>
      cases joins
      rfl
    | taken => exact absurd (accounted.2.symm.trans here) Bool.noConfusion

/-- What never changes back. -/
structure Advances (cell cell' : TaskCell α) : Prop where
  begun : cell.state ≠ .pending → cell'.state ≠ .pending
  marked : cell.cancelled = true → cell'.cancelled = true
  finished : cell.isFinished = true → cell'.isFinished = true
  taken : cell.state = .taken → cell'.state = .taken

theorem Advances.refl (cell : TaskCell α) : Advances cell cell := ⟨id, id, id, id⟩

private theorem Advances.done {cell cell' : TaskCell α} (advances : Advances cell cell') (done : cell.isDone = true) :
    cell'.isDone = true := by
  rcases Bool.or_eq_true_iff.mp done with finished | marked
  · exact Bool.or_eq_true_iff.mpr (.inl (advances.finished finished))
  · exact Bool.or_eq_true_iff.mpr (.inr (advances.marked marked))

private theorem Moves.advances (moves : Moves s flight s' flight' events)
    (accounted : Accounted s (before ++ (flight ++ after))) :
    Advances s.cell s'.cell := by
  obtain ⟨⟨state, mark, interrupt⟩, held⟩ := s
  cases moves with
  | refused => exact .refl _
  | told => exact .refl _
  | concluded => exact .refl _
  | began began =>
    cases state with
    | pending =>
      cases began
      exact ⟨nofun, id, nofun, nofun⟩
    | running | finished | taken => cases began
  | stored =>
    obtain ⟨running, -, -, -⟩ := accounted.running
    cases running
    exact ⟨nofun, id, nofun, nofun⟩
  | dropped =>
    cases state with
    | pending => exact ⟨nofun, id, nofun, nofun⟩
    | running | finished | taken => exact .refl _
  | cancelled mayInterrupt =>
    cases state with
    | pending => exact ⟨nofun, fun _ => rfl, nofun, nofun⟩
    | running => exact ⟨nofun, fun _ => rfl, nofun, nofun⟩
    | finished | taken => exact .refl _
  | joined here joins =>
    cases state with
    | pending | running => cases joins
    | finished =>
      cases joins
      exact ⟨nofun, id, fun _ => rfl, nofun⟩
    | taken =>
      cases joins
      exact .refl _

private theorem Advances.lasts {cell cell' : TaskCell α} (advances : Advances cell cell') {event : Event α}
    (lasts : event.lasts cell) : event.lasts cell' := by
  cases event with
  | began | cancelled => exact advances.begun lasts
  | dropped => exact ⟨advances.begun lasts.1, fun pending => advances.finished (lasts.2 pending)⟩
  | toldDone => exact fun yes => advances.done (lasts yes)
  | toldCancelled => exact fun yes => advances.marked (lasts yes)
  | waited => exact fun yes => advances.finished (lasts yes)
  | joined => exact advances.taken lasts

/-- and stays true. -/
theorem Moves.lasts (moves : Moves s flight s' flight' events) : ∀ event ∈ events, event.lasts s'.cell := by
  obtain ⟨⟨state, mark, interrupt⟩, held⟩ := s
  cases moves with
  | refused => nofun
  | concluded => nofun
  | stored => nofun
  | began began =>
    refine List.forall_mem_singleton.mpr ?_
    cases state with
    | pending =>
      cases began
      nofun
    | running | finished | taken => cases began
  | dropped =>
    refine List.forall_mem_singleton.mpr ?_
    cases state with
    | pending => exact ⟨nofun, fun _ => rfl⟩
    | running | finished | taken => exact ⟨nofun, nofun⟩
  | cancelled mayInterrupt here =>
    refine List.forall_mem_singleton.mpr ?_
    cases state <;> nofun
  | told here kind =>
    refine List.forall_mem_singleton.mpr ?_
    rcases kind with rfl | rfl | rfl <;> exact id
  | joined here joins =>
    refine List.forall_mem_singleton.mpr ?_
    cases state with
    | pending | running => cases joins
    | finished | taken =>
      cases joins
      rfl

/-- A result is a shutdown exactly if the job was dropped while the task was pending. -/
def Reported (s : Shared α) (seen : List (Event α)) : Prop :=
  ∀ result, s.cell.state = .finished result ∨ .joined result ∈ seen → (result = .error .shutdown ↔ .dropped true ∈ seen)

private theorem Reported.keep {seen : List (Event α)} (reported : Reported s seen)
    (same : ∀ result, s'.cell.state = .finished result → s.cell.state = .finished result)
    (noDrop : .dropped true ∉ events) (noJoin : ∀ result, .joined result ∉ events) : Reported s' (seen ++ events) := by
  intro result found
  simp only [List.mem_append, noDrop, noJoin result, or_false] at found ⊢
  exact reported result (found.imp_left (same result))

private theorem reported_first {seen : List (Event α)} {result : Except TaskError α} (unfinished : s.cell.isFinished = false)
    (lasting : ∀ event ∈ seen, event.lasts s.cell) (stores : s'.cell.state = .finished result)
    (reason : result = .error .shutdown ↔ .dropped true ∈ events) (noJoin : ∀ result, .joined result ∉ events) :
    Reported s' (seen ++ events) := by
  have noDrop : .dropped true ∉ seen := fun member =>
    absurd (unfinished.symm.trans ((lasting _ member).2 rfl)) Bool.noConfusion
  have noJoinBefore : ∀ result, .joined result ∉ seen := by
    intro result member
    have taken : s.cell.state = .taken := lasting _ member
    rw [TaskCell.isFinished, taken] at unfinished
    cases unfinished
  intro other found
  simp only [List.mem_append, noDrop, noJoin other, noJoinBefore other, or_false, false_or] at found ⊢
  rw [stores] at found
  cases found
  exact reason

private theorem Moves.reported {seen : List (Event α)} (moves : Moves s flight s' flight' events)
    (accounted : Accounted s (before ++ (flight ++ after))) (lasting : ∀ event ∈ seen, event.lasts s.cell)
    (reported : Reported s seen) : Reported s' (seen ++ events) := by
  obtain ⟨⟨state, mark, interrupt⟩, held⟩ := s
  cases moves with
  | refused => exact reported.keep (fun _ => id) nofun nofun
  | concluded => exact reported.keep (fun _ => id) nofun nofun
  | told here kind => rcases kind with rfl | rfl | rfl <;> exact reported.keep (fun _ => id) (by simp) (by simp)
  | began began =>
    cases state with
    | pending =>
      cases began
      exact reported.keep nofun (by simp) (by simp)
    | running | finished | taken => cases began
  | stored =>
    obtain ⟨running, -, noShutdown, -⟩ := accounted.running
    cases running
    exact reported_first rfl lasting rfl (by simpa using noShutdown) nofun
  | dropped =>
    cases state with
    | pending => exact reported_first rfl lasting rfl (by simp [isPending]) (by simp)
    | running | finished | taken => exact reported.keep (fun _ => id) (by simp [isPending]) (by simp)
  | cancelled mayInterrupt =>
    cases state with
    | pending => exact reported_first rfl lasting rfl (by simp) (by simp)
    | running | finished | taken => exact reported.keep (fun _ => id) (by simp) (by simp)
  | joined here joins =>
    cases state with
    | pending | running => cases joins
    | finished result =>
      -- The result that was there is the one that the join tells.
      have reason := reported result (.inl rfl)
      cases joins
      have noJoin : ∀ other, .joined other ∉ seen := fun other member => nomatch lasting _ member
      intro other found
      simp only [List.mem_append, noJoin other, List.mem_singleton, Event.joined.injEq, reduceCtorEq, or_false, false_or]
        at found ⊢
      rw [found]
      exact reason
    | taken => exact absurd (accounted.2.symm.trans here) Bool.noConfusion

/-- A result that is there stays, unless a join takes it. -/
theorem Moves.result {result : Except TaskError α} (moves : Moves s flight s' flight' events)
    (accounted : Accounted s (before ++ (flight ++ after))) (finished : s.cell.state = .finished result) :
    s'.cell.state = .finished result ∧ (∀ other, .joined other ∉ events) ∨
      s'.cell.state = .taken ∧ events = [.joined result] := by
  obtain ⟨⟨state, mark, interrupt⟩, held⟩ := s
  cases finished
  cases moves with
  | refused => exact .inl ⟨rfl, nofun⟩
  | concluded => exact .inl ⟨rfl, nofun⟩
  | began began => cases began
  | stored => exact absurd accounted.running.1 nofun
  | dropped => exact .inl ⟨rfl, by simp⟩
  | cancelled => exact .inl ⟨rfl, by simp⟩
  | told here kind => rcases kind with rfl | rfl | rfl <;> exact .inl ⟨rfl, by simp⟩
  | joined here joins =>
    cases joins
    exact .inr ⟨rfl, rfl⟩

end Moves

/-! ## Every run -/

/-- What holds of a task and of what has been seen of it. -/
structure Sound (s : System (Shared α) Unit (Instruction α)) (seen : List (Event α)) : Prop where
  accounted : Accounted s.shared (stages s.todo)
  lasting : ∀ event ∈ seen, event.lasts s.shared.cell
  ordered : seen.Pairwise Event.mayPrecede
  reported : Reported s.shared seen

section Run

variable {world : World α} {i : Nat} {s t u : System (Shared α) Unit (Instruction α)} {seen later events : List (Event α)}
  {duties : List (List Duty)}

/-- What a step does, in the midst of all threads. -/
theorem moves_of_step (stepped : machine.step world i s = some (u, events)) :
    ∃ before flight flight' after, stages s.todo = before ++ (flight ++ after) ∧
      stages u.todo = before ++ (flight' ++ after) ∧ Moves s.shared flight u.shared flight' events := by
  obtain ⟨before, own, instruction, rest, after, effect, threads, -, performed, rfl, rfl⟩ :=
    Machine.step_eq_some_iff.mp stepped
  obtain ⟨noneStarted, moves⟩ := moves_of_perform performed
  refine ⟨stages (before.flatMap Thread.todo), _, _, stages (after.flatMap Thread.todo), ?_, ?_, moves⟩
  · simp only [System.todo, threads, List.flatMap_append, List.flatMap_cons, stages_append]
  · simp only [System.todo, noneStarted, List.append_nil, List.flatMap_append, List.flatMap_cons, stages_append]

private theorem Sound.fits (sound : Sound s seen) (stepped : machine.step world i s = some (u, events)) :
    ∀ event ∈ events, event.fits s.shared.cell := by
  obtain ⟨before, flight, flight', after, flightBefore, -, moves⟩ := moves_of_step stepped
  exact moves.fits (flightBefore ▸ sound.accounted)

private theorem Moves.ordered {s s' : Shared α} {flight flight' : List (Stage α)} (moves : Moves s flight s' flight' events) :
    events.Pairwise Event.mayPrecede := by
  cases moves <;> first | exact .nil | exact List.pairwise_singleton _ _

theorem Sound.step (sound : Sound s seen) (stepped : machine.step world i s = some (u, events)) :
    Sound u (seen ++ events) := by
  have fits := sound.fits stepped
  obtain ⟨before, flight, flight', after, flightBefore, flightAfter, moves⟩ := moves_of_step stepped
  have accounted := sound.accounted
  rw [flightBefore] at accounted
  refine ⟨flightAfter ▸ moves.accounted accounted, ?_, ?_, moves.reported accounted sound.lasting sound.reported⟩
  · intro event member
    rcases List.mem_append.mp member with old | new
    · exact (moves.advances accounted).lasts (sound.lasting event old)
    · exact moves.lasts event new
  · refine List.pairwise_append.mpr ⟨sound.ordered, moves.ordered, fun one old two new => ?_⟩
    exact Event.mayPrecede_of (sound.lasting one old) (fits two new)

private theorem stages_initial (duties : List (List Duty)) : stages (initial duties : System (Shared α) _ _).todo = [] := by
  refine List.filterMap_eq_nil_iff.mpr fun instruction member => ?_
  obtain ⟨thread, isThread, here⟩ := List.mem_flatMap.mp member
  obtain ⟨duties, -, rfl⟩ := List.mem_map.mp isThread
  obtain ⟨duty, -, rfl⟩ := List.mem_map.mp here
  rfl

theorem Sound.start (duties : List (List Duty)) : Sound (initial duties : System (Shared α) _ _) [] := by
  refine ⟨⟨stages_initial duties, rfl, rfl⟩, nofun, .nil, ?_⟩
  rintro result (finished | joined)
  · cases finished
  · cases joined

theorem Sound.run (sound : Sound s seen) (run : machine.Run s t later) : Sound t (seen ++ later) := by
  induction run with
  | start =>
    rw [List.append_nil]
    exact sound
  | step world i _ stepped ih =>
    rw [← List.append_assoc]
    exact ih.step stepped

/-- A step leaves a result that is there as it is, unless a join takes it. -/
theorem Sound.result_step {result : Except TaskError α} (sound : Sound s seen)
    (finished : s.shared.cell.state = .finished result) (stepped : machine.step world i s = some (u, events)) :
    u.shared.cell.state = .finished result ∧ (∀ other, .joined other ∉ events) ∨
      u.shared.cell.state = .taken ∧ events = [.joined result] := by
  obtain ⟨before, flight, flight', after, flightBefore, -, moves⟩ := moves_of_step stepped
  have accounted := sound.accounted
  rw [flightBefore] at accounted
  exact moves.result accounted finished

/-- So it stays until a join takes it, and no join tells anything else. -/
theorem Sound.result_run {result : Except TaskError α} (sound : Sound s seen)
    (finished : s.shared.cell.state = .finished result) (run : machine.Run s t later) :
    t.shared.cell.state = .finished result ∧ (∀ other, .joined other ∉ later) ∨
      t.shared.cell.state = .taken ∧ ∀ other, .joined other ∈ later ↔ other = result := by
  induction run with
  | start => exact .inl ⟨finished, nofun⟩
  | @step t u later events world i run stepped ih =>
    have now := sound.run run
    rcases ih with ⟨finished, noJoin⟩ | ⟨taken, joins⟩
    · rcases now.result_step finished stepped with ⟨still, noneNow⟩ | ⟨taken, rfl⟩
      · exact .inl ⟨still, fun other member => (List.mem_append.mp member).elim (noJoin other) (noneNow other)⟩
      · refine .inr ⟨taken, fun other => ?_⟩
        simp [noJoin other]
    · refine .inr ⟨?_, fun other => ?_⟩
      · obtain ⟨before, flight, flight', after, flightBefore, -, moves⟩ := moves_of_step stepped
        exact (moves.advances (flightBefore ▸ now.accounted)).taken taken
      · have noneNow : .joined other ∉ events := by
          intro member
          have finished : t.shared.cell.state = .finished other := now.fits stepped _ member
          rw [taken] at finished
          cases finished
        rw [List.mem_append, or_iff_left noneNow, joins other]

end Run

private theorem joins_of_finished {s : System (Shared α) Unit (Instruction α)} {result : Except TaskError α}
    (accounted : Accounted s.shared (stages s.todo)) (finished : s.shared.cell.state = .finished result) {world : World α}
    {i : Nat} {own : Unit} {rest : List (Instruction α)}
    (isNext : s.threads[i]? = some ⟨own, .duty (.call .join) :: rest⟩) :
    ∃ t, machine.step world i s = some (t, [.joined result]) := by
  obtain ⟨⟨⟨state, mark, interrupt⟩, held⟩, threads⟩ := s
  cases finished
  obtain ⟨-, rfl⟩ := accounted
  rw [Machine.step, isNext]
  exact ⟨_, rfl⟩

/-- In whatever order a job is run or dropped and the handle is called: the closure is called once at most, and not after a
cancellation that returned true or after the job was dropped while the task was pending; and nothing that was told to be so
is told not to be so later (`Event.mayPrecede`). A result reports a shutdown exactly if the job was dropped while the task
was pending. It stays until a join takes it, which can be done at once and tells that very result; no join finds the
result gone. A cancellation returns false exactly if there is a result. -/
theorem handle_told {duties : List (List Duty)} {s : System (Shared α) Unit (Instruction α)} {seen : List (Event α)}
    (run : machine.Run (initial duties) s seen) :
    seen.Pairwise Event.mayPrecede ∧
    (∀ result, s.shared.cell.state = .finished result ∨ .joined result ∈ seen →
      (result = .error .shutdown ↔ .dropped true ∈ seen)) ∧
    (∀ result t later, s.shared.cell.state = .finished result → machine.Run s t later →
      t.shared.cell.state = .finished result ∧ (∀ other, .joined other ∉ later) ∨
        t.shared.cell.state = .taken ∧ ∀ other, .joined other ∈ later ↔ other = result) ∧
    (∀ result world i own rest, s.shared.cell.state = .finished result →
      s.threads[i]? = some ⟨own, .duty (.call .join) :: rest⟩ →
      ∃ t, machine.step world i s = some (t, [.joined result])) ∧
    ∀ world i t events, machine.step world i s = some (t, events) →
      (∀ result, .joined result ∈ events → s.shared.cell.state = .finished result) ∧
      ∀ effective, .cancelled effective ∈ events →
        (effective = false ↔ ∃ result, s.shared.cell.state = .finished result) := by
  have sound : Sound s seen := (Sound.start duties).run run
  refine ⟨sound.ordered, sound.reported, fun result t later finished => sound.result_run finished, ?_, ?_⟩
  · intro result world i own rest finished isNext
    exact joins_of_finished sound.accounted finished isNext
  · intro world i t events stepped
    exact ⟨fun result member => sound.fits stepped _ member, fun effective member => sound.fits stepped _ member⟩

/-- One thread runs the job, another one calls the handle. -/
def runnerAndCaller : System (Shared Nat) Unit (Instruction Nat) :=
  initial [[.run], [.call .isDone, .call (.cancel false), .call .join]]

/-- A closure that returns seven is cancelled while it runs. -/
theorem cancelled_while_running : ∃ s, machine.Run runnerAndCaller s [.began, .toldDone false, .cancelled true] ∧
    s.shared.cell.state = .finished (.error .cancelled) ∧
    ∃ t, machine.step ⟨.ok 7, false⟩ 1 s = some (t, [.joined (.error .cancelled)]) := by
  have ends : (machine.follow ([0, 1, 1, 0, 0].map (⟨.ok 7, false⟩, ·)) (runnerAndCaller, [])).map
      (fun past => (past.2, past.1.shared.cell.state, past.1.threads[1]?)) =
      some ([.began, .toldDone false, .cancelled true], .finished (.error .cancelled),
        some ⟨(), [.duty (.call .join)]⟩) := rfl
  obtain ⟨⟨s, seen⟩, followed, same⟩ := Option.map_eq_some_iff.mp ends
  obtain ⟨isSeen, same⟩ := Prod.mk.inj same
  obtain ⟨finished, isNext⟩ := Prod.mk.inj same
  have run := Machine.run_of_follow .start followed
  exact ⟨s, isSeen ▸ run, finished, (handle_told run).2.2.2.1 _ _ _ _ _ finished isNext⟩

/-! ## The cell of a task in a pool -/

/-- More threads with duties of their own make no difference to what the others do. -/
theorem run_beside {duties : List (List Duty)} {t : System (Shared α) Unit (Instruction α)} {seen : List (Event α)}
    (run : machine.Run (initial duties) t seen) (more : List (List Duty)) :
    machine.Run (initial (duties ++ more)) ⟨t.shared, t.threads ++ (initial more : System (Shared α) _ _).threads⟩ seen := by
  induction run with
  | start =>
    rw [initial, initial, initial, List.map_append]
    exact .start
  | step world i _ stepped ih =>
    refine ih.step world i ?_
    obtain ⟨before, own, instruction, rest, after, effect, threads, index, performed, rfl, rfl⟩ :=
      Machine.step_eq_some_iff.mp stepped
    obtain ⟨noneStarted, -⟩ := moves_of_perform performed
    refine Machine.step_eq_some_iff.mpr ⟨before, own, instruction, rest,
      after ++ (initial more : System (Shared α) _ _).threads, effect, ?_, index, performed, ?_, rfl⟩
    · rw [threads, List.append_assoc, List.cons_append]
    · simp only [noneStarted, List.append_nil, List.append_assoc, List.cons_append]

/-- Threads with duties can bring a task to where its cell is like this and these of its runs have to end. None of them
has more than one thing left to do. -/
def Reachable (cell : TaskCell α) (flight : List (Stage α)) : Prop :=
  ∃ duties seen, ∃ t : System (Shared α) Unit (Instruction α), machine.Run (initial duties) t seen ∧
    t.shared = ⟨cell, true⟩ ∧ stages t.todo = flight ∧ ∀ thread ∈ t.threads, thread.todo.length ≤ 1

section Reachable

variable {cell cell' : TaskCell α} {flight : List (Stage α)}

private theorem reachable_start : Reachable ({} : TaskCell α) [] := ⟨[], [], _, .start, rfl, rfl, nofun⟩

/-- One more thread performs a duty. -/
theorem Reachable.duty (reachable : Reachable cell flight) (world : World α) (duty : Duty) {todo : List (Instruction α)}
    {events : List (Event α)}
    (performed : ∀ me, machine.perform world me ⟨cell, true⟩ () (.duty duty) [] =
      some { shared := ⟨cell', true⟩, thread := ⟨(), todo⟩, events }) (few : todo.length ≤ 1) :
    Reachable cell' (flight ++ stages todo) := by
  obtain ⟨duties, seen, ⟨shared, threads⟩, run, rfl, rfl, short⟩ := reachable
  have beside := run_beside run [[duty]]
  have stepped : machine.step world threads.length ⟨⟨cell, true⟩, threads ++ [⟨(), [.duty duty]⟩]⟩ =
      some (⟨⟨cell', true⟩, threads ++ [⟨(), todo⟩]⟩, events) :=
    Machine.step_eq_some_iff.mpr ⟨threads, (), .duty duty, [], [], _, rfl, rfl, performed _, rfl, rfl⟩
  refine ⟨_, _, _, beside.step _ _ stepped, rfl, ?_, ?_⟩
  · simp only [System.todo, List.flatMap_append, List.flatMap_cons, List.flatMap_nil, List.append_nil, stages_append]
  · intro thread member
    rcases List.mem_append.mp member with other | own
    · exact short thread other
    · rw [List.mem_singleton.mp own]
      exact few

/-- The thread that has to end the only run. -/
theorem split_of_stages {stage : Stage α} {threads : List (Thread Unit (Instruction α))} :
    stages (threads.flatMap Thread.todo) = [stage] → (∀ thread ∈ threads, thread.todo.length ≤ 1) →
      ∃ before instruction after, threads = before ++ ⟨(), [instruction]⟩ :: after ∧ instruction.stage? = some stage ∧
        stages (before.flatMap Thread.todo) = [] ∧ stages (after.flatMap Thread.todo) = [] := by
  induction threads with
  | nil => nofun
  | cons thread threads ih =>
    intro one short
    obtain ⟨own, todo⟩ := thread
    obtain ⟨here, others⟩ := List.forall_mem_cons.mp short
    -- Without a run of its own the first thread can be left out.
    have beyond : stages todo = [] → ∃ before instruction after,
        ⟨own, todo⟩ :: threads = before ++ ⟨(), [instruction]⟩ :: after ∧ instruction.stage? = some stage ∧
          stages (before.flatMap Thread.todo) = [] ∧ stages (after.flatMap Thread.todo) = [] := by
      intro none
      rw [List.flatMap_cons, stages_append, none] at one
      obtain ⟨before, instruction, after, rfl, isStage, noneBefore, noneAfter⟩ := ih one others
      refine ⟨⟨own, todo⟩ :: before, instruction, after, rfl, isStage, ?_, noneAfter⟩
      rw [List.flatMap_cons, stages_append, none, noneBefore]
      rfl
    cases todo with
    | nil => exact beyond rfl
    | cons instruction more =>
      cases List.length_eq_zero_iff.mp (Nat.le_zero.mp (Nat.le_of_succ_le_succ here))
      cases isStage : instruction.stage? with
      | none => exact beyond (by simp [stages, isStage])
      | some stage' =>
        have ownStage : stages [instruction] = [stage'] := List.filterMap_cons_some isStage
        rw [List.flatMap_cons, stages_append, ownStage] at one
        obtain ⟨rfl, noneAfter⟩ := List.cons.inj one
        exact ⟨[], instruction, threads, rfl, isStage, rfl, noneAfter⟩

/-- The thread that runs the task goes on. -/
theorem Reachable.goOn {stage : Stage α} (reachable : Reachable cell [stage]) (world : World α) {todo : List (Instruction α)}
    (performed : ∀ me instruction, instruction.stage? = some stage →
      machine.perform world me ⟨cell, true⟩ () instruction [] =
        some { shared := ⟨cell', true⟩, thread := ⟨(), todo⟩, events := [] }) (few : todo.length ≤ 1) :
    Reachable cell' (stages todo) := by
  obtain ⟨duties, seen, ⟨shared, threads⟩, run, rfl, one, short⟩ := reachable
  obtain ⟨before, instruction, after, rfl, isStage, noneBefore, noneAfter⟩ := split_of_stages one short
  have stepped : machine.step world before.length ⟨⟨cell, true⟩, before ++ ⟨(), [instruction]⟩ :: after⟩ =
      some (⟨⟨cell', true⟩, before ++ ⟨(), todo⟩ :: (after ++ [])⟩, []) :=
    Machine.step_eq_some_iff.mpr ⟨before, (), instruction, [], after, _, rfl, rfl, performed _ _ isStage, rfl, rfl⟩
  refine ⟨_, _, _, run.step _ _ stepped, rfl, ?_, ?_⟩
  · simp only [System.todo, List.flatMap_append, List.flatMap_cons, List.append_nil, stages_append,
      noneBefore, noneAfter, List.nil_append]
  · intro thread member
    rw [mem_threads_iff] at member
    rcases member with rfl | other | started
    · exact few
    · exact short thread (mem_of_other other)
    · cases started

end Reachable

/-- What a step of a pool does to a one-off task, threads with duties can do as well. -/
theorem reachable_of_moves {record record' : Option Pool.Record} {flight flight' before after : List Pool.Stage}
    {effective : Bool} (moves : Pool.Moves record flight record' flight' effective)
    (accounted : Pool.Accounted record (before ++ (flight ++ after)))
    (reachable : ∀ cell, record = some (.oneOff cell) → Reachable cell (before ++ (flight ++ after))) :
    ∀ cell, record' = some (.oneOff cell) → Reachable cell (before ++ (flight' ++ after)) := by
  intro cell' isCell
  cases moves with
  | same => exact reachable cell' isCell
  | added fresh =>
    rcases fresh with rfl | rfl | rfl
    · cases isCell
    · cases isCell
      have none : before ++ (flight ++ after) = [] := accounted
      rw [none]
      exact reachable_start
    · cases isCell
  | @began cell _ flight began =>
    cases isCell
    have here := reachable cell rfl
    obtain ⟨state, mark, interrupt⟩ := cell
    cases state with
    | pending =>
      obtain ⟨none, -⟩ := accounted
      rw [none] at here
      obtain ⟨rfl, rest⟩ := List.append_eq_nil_iff.mp none
      obtain ⟨rfl, rfl⟩ := List.append_eq_nil_iff.mp rest
      cases began
      have runs := here.duty ⟨.ok 0, false⟩ .run (fun _ => rfl) (Nat.le_refl 1)
      exact runs
    | running | finished | taken => cases began
  | concluded outcome =>
    cases isCell
    obtain ⟨_, -, -, rfl, rfl, rfl⟩ := accounted.running
    have looks : ∀ me (instruction : Instruction Int64), instruction.stage? = some none →
        machine.perform ⟨outcome, false⟩ me ⟨cell', true⟩ () instruction [] =
          some { shared := ⟨cell', true⟩, thread := ⟨(), [.store (cell'.verdict outcome)]⟩, events := [] } := by
      intro me instruction isStage
      cases instruction <;> cases isStage
      rfl
    exact Reachable.goOn (reachable cell' rfl) _ looks (Nat.le_refl 1)
  | @stored cell result =>
    cases isCell
    obtain ⟨_, -, -, rfl, rfl, rfl⟩ := accounted.running
    have stores : ∀ me (instruction : Instruction Int64), instruction.stage? = some (some result) →
        machine.perform ⟨.ok 0, false⟩ me ⟨cell, true⟩ () instruction [] =
          some { shared := ⟨cell.finish result, true⟩, thread := ⟨(), []⟩, events := [] } := by
      intro me instruction isStage
      cases instruction <;> cases isStage
      rfl
    exact Reachable.goOn (reachable cell rfl) _ stores (Nat.zero_le 1)
  | void none => exact absurd isCell (none cell')
  | @abandoned cell =>
    cases isCell
    have drops := (reachable cell rfl).duty ⟨.ok 0, false⟩ .drop (fun _ => rfl) (Nat.zero_le 1)
    rw [← List.append_nil (before ++ (flight ++ after))]
    exact drops
  | @cancelled cell _ mayInterrupt =>
    cases isCell
    have cancels := (reachable cell rfl).duty ⟨.ok 0, false⟩ (.call (.cancel mayInterrupt)) (fun _ => rfl)
      (Nat.zero_le 1)
    rw [← List.append_nil (before ++ (flight ++ after))]
    exact cancels
  | marked => cases isCell

/-- Whatever a pool makes of the cell of a one-off task, threads with duties can make of it, with as many of its runs that
have begun and not ended. -/
theorem reachable_of_pool {config : Pool.Config} {calls : List (List Pool.Call)}
    {s : System Pool.State Pool.Own Pool.Instruction} {seen : List Pool.Event}
    (run : Pool.machine.Run (Pool.withClients config calls) s seen) {task : Nat} {cell : TaskCell Int64}
    (isCell : s.shared.records[task]? = some (.oneOff cell)) : Reachable cell (Pool.stages task s.todo) := by
  induction run generalizing cell with
  | start => simp [Pool.withClients, Pool.initial] at isCell
  | step world i run stepped ih =>
    have sound := (Pool.Sound.start config calls).run run
    obtain ⟨before, flight, flight', after, _, flightBefore, flightAfter, moves, -⟩ := sound.moves stepped task
    have accounted := sound.accounted task
    rw [flightBefore] at accounted
    rw [flightAfter]
    exact reachable_of_moves moves accounted (fun cell isCell => flightBefore ▸ ih isCell) cell isCell

end PeerSubstrate.Executor.TaskHandle
