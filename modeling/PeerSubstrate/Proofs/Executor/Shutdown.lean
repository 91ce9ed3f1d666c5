import PeerSubstrate.Proofs.Executor.Custody
import PeerSubstrate.Proofs.Executor.Cancellation

/-!
# After a shutdown

Along every run of the pool a pending task is held in exactly one place, and every queue has somebody who looks after it
(`Secure`). So nothing is left behind once the pool is shut down and all threads have come to rest.
-/

namespace PeerSubstrate.Executor.Pool
open PeerSubstrate.Concurrency
open Instruction (custody? immediate? funnel? weighty)

section Changes

variable {h h' : Stock} {gone new : List Instruction} {events : List Event}

private theorem immediate_ofNext (next : List (Immediate.Next Job)) :
    (next.flatMap Instruction.ofNext).filterMap immediate? = next.filterMap Immediate.Next.step? := by
  induction next with
  | nil => rfl
  | cons one next ih =>
    rw [List.flatMap_cons, List.filterMap_append, ih]
    cases one <;> rfl

private theorem funnel_ofFunnel (next : List (Serialized.Next Entry)) :
    (next.map Instruction.ofFunnel).filterMap funnel? = next.filterMap Serialized.Next.step? := by
  induction next with
  | nil => rfl
  | cons one next ih =>
    rw [List.map_cons, List.filterMap_cons, List.filterMap_cons, ih]
    cases one <;> rfl

/-- What follows a step of one pool is no step of the other. -/
theorem funnel_ofNext (next : List (Immediate.Next Job)) : (next.flatMap Instruction.ofNext).filterMap funnel? = [] := by
  rw [List.filterMap_eq_nil_iff]
  intro i member
  obtain ⟨one, -, member⟩ := List.mem_flatMap.mp member
  cases one <;> simp [Instruction.ofNext, Instruction.ofImmediate] at member <;> subst member <;> rfl

private theorem immediate_ofFunnel (next : List (Serialized.Next Entry)) :
    (next.map Instruction.ofFunnel).filterMap immediate? = [] := by
  rw [List.filterMap_eq_nil_iff]
  intro i member
  obtain ⟨one, -, rfl⟩ := List.mem_map.mp member
  cases one <;> rfl

private theorem steps_ofDue (entry : Entry) : immediate? (.ofDue entry) = none ∧ funnel? (.ofDue entry) = none := by
  unfold Instruction.ofDue
  split <;> exact ⟨rfl, rfl⟩

private theorem steps_abandon (queue : List Entry) :
    (queue.map fun entry => Instruction.abandon entry.task).filterMap immediate? = [] ∧
    (queue.map fun entry => Instruction.abandon entry.task).filterMap funnel? = [] := by
  constructor <;>
    · rw [List.filterMap_eq_nil_iff]
      intro i member
      obtain ⟨entry, -, rfl⟩ := List.mem_map.mp member
      rfl

theorem Changes.staffed {steps : List (Immediate.Step Job)} (changes : Changes h gone h' new events)
    (staffed : Immediate.Staffed h.immediate (gone.filterMap immediate? ++ steps)) :
    Immediate.Staffed h'.immediate (new.filterMap immediate? ++ steps) := by
  cases changes with
  | @submit record kind instruction fresh holds sends =>
    cases isStep : immediate? instruction with
    | none =>
      rw [List.filterMap_cons, isStep]
      exact staffed
    | some step =>
      obtain ⟨job, rfl⟩ := sends step isStep
      rw [List.filterMap_cons, isStep]
      exact staffed.send job
  | @accept job accepting =>
    have performs : h.immediate.perform false (.send job) =
        some ({ h.immediate with queue := h.immediate.queue ++ [job] }, [.go .countThreads]) := by
      simp [Immediate.Shared.perform, accepting]
    exact staffed.perform performs
  | @reject job refusing =>
    have performs : h.immediate.perform false (.send job) = some (h.immediate, [.reject job]) := by
      simp [Immediate.Shared.perform, refusing]
    exact staffed.perform performs
  | serve _ performs =>
    rw [immediate_ofNext]
    exact staffed.perform performs
  | close => exact staffed.close
  | hold _ _ _ none none' =>
    simp only [List.filterMap_cons, none, none'] at staffed ⊢
    exact staffed
  | finish _ none | ceased _ none =>
    simp only [List.filterMap_cons, none] at staffed
    exact staffed
  | funnel step =>
    rw [immediate_ofFunnel]
    exact staffed
  | @take entry =>
    rw [List.filterMap_cons, (steps_ofDue entry).1]
    exact staffed
  | shut =>
    rw [(steps_abandon h.queue).1]
    exact staffed
  | _ => exact staffed

private theorem Changes.attended {steps : List (Serialized.Step Entry)} (changes : Changes h gone h' new events)
    (attended : Serialized.Attended h.funnel (gone.filterMap funnel? ++ steps))
    (retries : ∀ entry, .funnel (.enqueue entry) ∈ gone → .retry ∈ steps) :
    Serialized.Attended h'.funnel (new.filterMap funnel? ++ steps) := by
  cases changes with
  | submit _ _ _ none =>
    rw [List.filterMap_cons, none]
    exact attended
  | @hold i j task f keeps same _ _ none enters =>
    rw [List.filterMap_cons, none] at attended
    cases isStep : funnel? j with
    | none =>
      rw [List.filterMap_cons, isStep]
      exact attended
    | some step =>
      obtain ⟨entry, rfl⟩ := enters step isStep
      rw [List.filterMap_cons, isStep]
      exact attended.acquire entry
  | serve =>
    rw [funnel_ofNext]
    exact attended
  | funnel step =>
    rw [funnel_ofFunnel]
    refine attended.perform fun entry isEnqueue => ?_
    subst isEnqueue
    exact retries entry List.mem_cons_self
  | finish _ _ none | ceased _ _ none =>
    rw [List.filterMap_cons, none] at attended
    exact attended
  | @take entry =>
    rw [List.filterMap_cons, (steps_ofDue entry).2]
    exact attended
  | shut =>
    rw [(steps_abandon h.queue).2]
    exact attended
  | _ => exact attended

private theorem Changes.drained (changes : Changes h gone h' new events) (drained : h.stopped = true → h.queue = []) :
    h'.stopped = true → h'.queue = [] := by
  cases changes with
  | push going | take going => simp [going]
  | shut => exact fun _ => rfl
  | _ => exact drained

/-- Once the scheduled pool is shut down, it stays so. -/
theorem Changes.stays (changes : Changes h gone h' new events) (stopped : h.stopped = true) : h'.stopped = true := by
  cases changes with
  | shut => rfl
  | _ => exact stopped

private theorem accepting_of_perform {α : Type} {p p' : Immediate.Shared α} {expired : Bool} {step : Immediate.Step α}
    {next : List (Immediate.Next α)} (performs : p.perform expired step = some (p', next)) : p'.accepting = p.accepting := by
  cases step with
  | countThreads | countQueue | park | choose | stop =>
    cases performs
    rfl
  | send | countIdle | claim | consider | retire =>
    simp only [Immediate.Shared.perform] at performs
    split at performs <;> cases performs <;> rfl
  | receive =>
    simp only [Immediate.Shared.perform] at performs
    split at performs
    · cases performs
      rfl
    · split at performs
      · cases performs
        rfl
      · split at performs <;> cases performs
        rfl
  | unpark received => cases received <;> cases performs <;> rfl

/-- Only a shutdown closes the immediate pool. -/
theorem Changes.closed (changes : Changes h gone h' new events) :
    h'.immediate.accepting = h.immediate.accepting ∨ gone = [.closeImmediate] := by
  cases changes with
  | serve _ performs => exact .inl (accepting_of_perform performs)
  | close => exact .inr rfl
  | _ => exact .inl rfl

end Changes

/-! ## All threads -/

section Todo

variable {β : Type} {f : Instruction → Option β}

theorem weighs_custody (i : Instruction) (light : i.weighty = false) : custody? i = none := by
  simp only [weighty, Bool.or_eq_false_iff, Option.isSome_eq_false_iff, Option.isNone_iff_eq_none] at light
  exact light.1.1

theorem weighs_immediate (i : Instruction) (light : i.weighty = false) : immediate? i = none := by
  simp only [weighty, Bool.or_eq_false_iff, Option.isSome_eq_false_iff, Option.isNone_iff_eq_none] at light
  exact light.1.2

private theorem weighs_funnel (i : Instruction) (light : i.weighty = false) : funnel? i = none := by
  simp only [weighty, Bool.or_eq_false_iff, Option.isSome_eq_false_iff, Option.isNone_iff_eq_none] at light
  exact light.2

theorem filterMap_weighty (weighs : ∀ i, i.weighty = false → f i = none) (todo : List Instruction) :
    (todo.filter weighty).filterMap f = todo.filterMap f := by
  induction todo with
  | nil => rfl
  | cons i todo ih =>
    by_cases heavy : i.weighty = true
    · rw [List.filter_cons_of_pos heavy, List.filterMap_cons, List.filterMap_cons, ih]
    · rw [List.filter_cons_of_neg heavy, List.filterMap_cons, weighs i (Bool.eq_false_iff.mpr heavy), ih]

private theorem filterMap_gone (weighs : ∀ i, i.weighty = false → f i = none) (i : Instruction) :
    i.gone.filterMap f = [i].filterMap f := by
  unfold Instruction.gone
  split
  · rfl
  · exact filterMap_weighty weighs _

private theorem eq_of_mem_gone {i j : Instruction} (member : j ∈ i.gone) : j = i := by
  unfold Instruction.gone at member
  split at member
  · exact List.mem_singleton.mp member
  · exact List.mem_singleton.mp (List.mem_filter.mp member).1

end Todo

/-- What others hold stays apart. -/
theorem Stock.count_held_of_perm {h : Stock} {todo parts : List Instruction} {others : List (Custody × Nat)}
    (same : (todo.filterMap custody?).Perm (parts.filterMap custody? ++ others)) (x : Custody × Nat) :
    (h.held todo).count x = (h.held parts).count x + others.count x := by
  rw [Stock.count_held, Stock.count_held, same.count_eq, List.count_append]
  omega

/-- All that is held, in queues and by threads. -/
def holdings (s : System State Own Instruction) : List (Custody × Nat) := s.shared.stock.held s.todo

/-- What holds of a pool whose deadlines can all be represented. -/
structure Secure (s : System State Own Instruction) (seen : List Event) : Prop where
  orderly : ∀ thread ∈ s.threads, Orderly thread.todo
  staffed : Immediate.Staffed s.shared.immediate (s.todo.filterMap immediate?)
  attended : Serialized.Attended s.shared.funnel (s.todo.filterMap funnel?)
  drained : s.shared.scheduled.stopped = true → s.shared.scheduled.queue = []
  closing : s.shared.immediate.accepting = true ∨ s.shared.scheduled.stopped = true ∨
    ∃ thread ∈ s.threads, thread.todo.head? = some .closeScheduled
  kept : ∀ task, Kept task (seen.filter Event.telling) (fun kind => (holdings s).count (kind, task)) s.shared.records[task]?

section Step

variable {world : World} {before after : List (Thread Own Instruction)} {own : Own} {instruction : Instruction}
  {rest : List Instruction} {effect : Effect State Own Instruction Event} {shared : State} {seen : List Event}

/-- A result is about to be stored only for a task that is running. -/
theorem Sound.running {s : System State Own Instruction} (sound : Sound s) {task : Nat} {result : Except TaskError Int64}
    {cell : TaskCell Int64} (stores : .store task result ∈ s.todo) (found : s.shared.records[task]? = some (.oneOff cell)) :
    cell.state = .running := by
  have accounted := sound.accounted task
  have member := stored_iff.mpr stores
  rw [found] at accounted
  simp only [Accounted] at accounted
  split at accounted
  · rw [accounted.1] at member
    cases member
  · assumption
  · rw [accounted] at member
    cases member
  · exact accounted.elim

/-- The same if this is what a thread does next. -/
theorem Sound.running_next (sound : Sound ⟨shared, before ++ ⟨own, instruction :: rest⟩ :: after⟩) {task : Nat}
    {result : Except TaskError Int64} {cell : TaskCell Int64} (stores : instruction = .store task result)
    (found : shared.records[task]? = some (.oneOff cell)) : cell.state = .running := by
  subst stores
  exact sound.running (List.mem_flatMap.mpr ⟨⟨own, .store task result :: rest⟩, by simp, List.mem_cons_self⟩) found

/-- A step leaves alone what the other threads have to do, and what the thread itself has to do afterwards. -/
theorem todo_parts {β : Type} {f : Instruction → Option β} {new : List Instruction}
    (weighs : ∀ i, i.weighty = false → f i = none)
    (same : ((effect.thread.todo ++ effect.started.flatMap Thread.todo).filter weighty).Perm (new ++ rest.filter weighty)) :
    ∃ others : List β,
      ((System.todo ⟨shared, before ++ ⟨own, instruction :: rest⟩ :: after⟩).filterMap f).Perm
        (instruction.gone.filterMap f ++ (rest.filterMap f ++ others)) ∧
      ((System.todo ⟨effect.shared, before ++ effect.thread :: (after ++ effect.started)⟩).filterMap f).Perm
        (new.filterMap f ++ (rest.filterMap f ++ others)) := by
  have inFront : ∀ one two three four : List β, (one ++ (two ++ (three ++ four))).Perm (two ++ (three ++ (one ++ four))) :=
    fun one two three four => (List.perm_append_comm_assoc one two _).trans
      ((List.perm_append_comm_assoc one three four).append_left two)
  have follows := same.filterMap f
  rw [List.filterMap_append (l := new), filterMap_weighty weighs, filterMap_weighty weighs, List.filterMap_append] at follows
  refine ⟨(before.flatMap Thread.todo).filterMap f ++ (after.flatMap Thread.todo).filterMap f, ?_, ?_⟩
  · have parts : (System.todo ⟨shared, before ++ ⟨own, instruction :: rest⟩ :: after⟩).filterMap f =
        (before.flatMap Thread.todo).filterMap f ++ (instruction.gone.filterMap f ++
          (rest.filterMap f ++ (after.flatMap Thread.todo).filterMap f)) := by
      rw [filterMap_gone weighs]
      simp [System.todo, ← List.filterMap_append]
    rw [parts]
    exact inFront _ _ _ _
  · have parts : (System.todo ⟨effect.shared, before ++ effect.thread :: (after ++ effect.started)⟩).filterMap f =
        (before.flatMap Thread.todo).filterMap f ++ (effect.thread.todo.filterMap f ++
          ((after.flatMap Thread.todo).filterMap f ++ (effect.started.flatMap Thread.todo).filterMap f)) := by
      simp [System.todo, ← List.filterMap_append]
    rw [parts]
    refine (List.Perm.append_left _ ?_).trans (inFront _ _ _ _)
    refine (List.perm_append_comm.append_left _).trans ?_
    rw [← List.append_assoc, ← List.append_assoc]
    exact follows.append_right _

theorem Secure.continues (secure : Secure ⟨shared, before ++ ⟨own, instruction :: rest⟩ :: after⟩ seen)
    (sound : Sound ⟨shared, before ++ ⟨own, instruction :: rest⟩ :: after⟩) (inTime : representable world instruction = true)
    (performed : perform world before.length shared own instruction rest = some effect) :
    Continues shared.stock instruction rest effect := by
  have orderly : Orderly (instruction :: rest) := secure.orderly ⟨own, instruction :: rest⟩ (by simp)
  exact orderly.continues inTime (fun _ _ _ stores found => sound.running_next stores found) performed

theorem Secure.step (secure : Secure ⟨shared, before ++ ⟨own, instruction :: rest⟩ :: after⟩ seen)
    (sound : Sound ⟨shared, before ++ ⟨own, instruction :: rest⟩ :: after⟩)
    (performed : (machine.restrict representable).perform world before.length shared own instruction rest = some effect) :
    Secure ⟨effect.shared, before ++ effect.thread :: (after ++ effect.started)⟩ (seen ++ effect.events) := by
  obtain ⟨inTime, performed⟩ := Machine.restrict_perform.mp performed
  have orderly : Orderly (instruction :: rest) := secure.orderly ⟨own, instruction :: rest⟩ (by simp)
  obtain ⟨orderly', starts, new, same, changes⟩ := secure.continues sound inTime performed
  constructor
  case orderly =>
    intro thread member
    simp only [List.mem_append, List.mem_cons] at member
    rcases member with member | rfl | member | member
    · exact secure.orderly thread (by simp [member])
    · exact orderly'
    · exact secure.orderly thread (by simp [member])
    · exact starts thread member
  case staffed =>
    obtain ⟨others, todoBefore, todoAfter⟩ := todo_parts weighs_immediate same
    exact (changes.staffed (secure.staffed.perm todoBefore)).perm todoAfter.symm
  case attended =>
    obtain ⟨others, todoBefore, todoAfter⟩ := todo_parts weighs_funnel same
    refine (changes.attended (secure.attended.perm todoBefore) fun entry queues => ?_).perm todoAfter.symm
    have isNext := eq_of_mem_gone queues
    subst isNext
    have retries : .funnel .retry ∈ rest := List.mem_of_mem_head? orderly.1
    exact List.mem_append_left _ (List.mem_filterMap.mpr ⟨_, retries, rfl⟩)
  case drained => exact changes.drained secure.drained
  case closing =>
    -- Between the two halves of a shutdown the second one is next for the thread that did the first.
    by_cases shuts : instruction = .closeScheduled
    · subst shuts
      cases performed
      exact .inr (.inl rfl)
    · rcases changes.closed with unclosed | closes
      · rcases secure.closing with accepting | stopped | ⟨thread, member, next⟩
        · exact .inl (unclosed.trans accepting)
        · exact .inr (.inl (changes.stays stopped))
        · simp only [List.mem_append, List.mem_cons] at member
          rcases member with before | rfl | after
          · exact .inr (.inr ⟨thread, by simp [before], next⟩)
          · exact absurd (Option.some.inj next) shuts
          · exact .inr (.inr ⟨thread, by simp [after], next⟩)
      · have isClose : .closeImmediate = instruction := eq_of_mem_gone (closes ▸ List.mem_singleton_self _)
        subst isClose
        cases performed
        exact .inr (.inr ⟨⟨own, rest⟩, by simp, orderly.1⟩)
  case kept =>
    intro task
    obtain ⟨subject, held, held', accounts⟩ := changes.accounts
    obtain ⟨others, todoBefore, todoAfter⟩ := @todo_parts before after own instruction rest effect shared _ _ _
      weighs_custody same
    rw [List.filter_append]
    exact accounts.kept (Stock.count_held_of_perm todoBefore) (Stock.count_held_of_perm todoAfter) (secure.kept task)

end Step

/-- What ends a cancellation. -/
def Instruction.endsCancel : Instruction → Bool
  | .markCancelled _ | .markInterrupt _ | .answer _ _ _ => true
  | _ => false

/-- The thread is not inside of a submission or a shutdown, and it runs no task: it has nothing left to do but calls that
have not begun, and perhaps the end of a cancellation. A worker is so only after it has ended. -/
def BetweenCalls (todo : List Instruction) : Prop :=
  ∃ (ends : List Instruction) (calls : List Call), (∀ i ∈ ends, i.endsCancel = true) ∧ todo = ends ++ calls.flatMap Call.todo

/-- Neither jobs nor results depend on this. -/
def Instruction.Light (i : Instruction) : Prop := i.weighty = false ∧ ∀ task, i.stage? task = none

theorem light_of_mem_calls {calls : List Call} {i : Instruction} (member : i ∈ calls.flatMap Call.todo) :
    i.Light ∧ i.loose = true := by
  obtain ⟨call, -, here⟩ := List.mem_flatMap.mp member
  cases call with
  | submit | cancel =>
    cases List.mem_singleton.mp here
    exact ⟨⟨rfl, fun _ => rfl⟩, rfl⟩
  | shutdown =>
    rcases List.mem_pair.mp here with rfl | rfl <;> exact ⟨⟨rfl, fun _ => rfl⟩, rfl⟩

private theorem BetweenCalls.light {todo : List Instruction} (between : BetweenCalls todo) : ∀ i ∈ todo, i.Light := by
  obtain ⟨ends, calls, marks, rfl⟩ := between
  intro i member
  rcases List.mem_append.mp member with here | there
  · have isEnd := marks i here
    cases i <;> simp [Instruction.endsCancel] at isEnd <;> exact ⟨rfl, fun _ => rfl⟩
  · exact (light_of_mem_calls there).1

private theorem BetweenCalls.not_closing {todo : List Instruction} (between : BetweenCalls todo) :
    todo.head? ≠ some .closeScheduled := by
  obtain ⟨ends, calls, marks, rfl⟩ := between
  cases ends with
  | nil =>
    cases calls with
    | nil => simp
    | cons call => cases call <;> simp [Call.todo]
  | cons i ends =>
    intro first
    cases Option.some.inj first
    simpa [Instruction.endsCancel] using marks .closeScheduled List.mem_cons_self

private theorem orderly_calls (calls : List Call) : Orderly (calls.flatMap Call.todo) := by
  induction calls with
  | nil => trivial
  | cons call calls ih =>
    cases call with
    | submit =>
      refine ⟨fun i member => ?_, ih⟩
      exact (light_of_mem_calls ((List.takeWhile_prefix _).subset member)).2
    | cancel => exact ⟨trivial, ih⟩
    | shutdown => exact ⟨rfl, trivial, ih⟩

private theorem filterMap_of_light {β : Type} {f : Instruction → Option β} (weighs : ∀ i, i.weighty = false → f i = none)
    {todo : List Instruction} (light : ∀ i ∈ todo, i.Light) : todo.filterMap f = [] :=
  List.filterMap_eq_nil_iff.mpr fun i member => weighs i (light i member).1

/-! ## Runs -/

section Run

variable {config : Config} {calls : List (List Call)} {s : System State Own Instruction} {seen : List Event}

theorem Secure.start (config : Config) (calls : List (List Call)) : Secure (withClients config calls) [] := by
  have parts : ∀ thread ∈ (withClients config calls).threads, Orderly thread.todo ∧ ∀ i ∈ thread.todo, i.Light := by
    intro thread member
    simp only [withClients, initial, List.mem_append, List.mem_cons, List.mem_map] at member
    rcases member with (rfl | ⟨number, -, rfl⟩) | ⟨calls, -, rfl⟩
    · exact ⟨trivial, by simp⟩
    · refine ⟨⟨trivial, trivial, trivial⟩, fun i member => ?_⟩
      rcases List.mem_pair.mp member with rfl | rfl <;> exact ⟨rfl, fun _ => rfl⟩
    · exact ⟨orderly_calls calls, fun i member => (light_of_mem_calls member).1⟩
  have light : ∀ i ∈ (withClients config calls).todo, i.Light := by
    intro i member
    obtain ⟨thread, isThread, here⟩ := List.mem_flatMap.mp member
    exact (parts thread isThread).2 i here
  constructor
  case orderly => exact fun thread member => (parts thread member).1
  case staffed =>
    rw [filterMap_of_light weighs_immediate light]
    exact .start config.core config.max
  case attended =>
    rw [filterMap_of_light weighs_funnel light]
    exact ⟨by simp [withClients, initial], by simp [withClients, initial]⟩
  case drained => exact fun _ => rfl
  case closing => exact .inl rfl
  case kept =>
    have none : holdings (withClients config calls) = [] := filterMap_of_light weighs_custody light
    intro task
    rw [none]
    exact ⟨fun _ => rfl, by simp⟩

theorem Secure.run (run : (machine.restrict representable).Run (withClients config calls) s seen) : Secure s seen :=
  run.along (.start config calls) fun past secure performed =>
    secure.step ((Sound.start config calls).run past.of_restrict) performed

/-- What has become of a task that nobody will come back to. -/
def Settled (task : Nat) (seen : List Event) : Record → Prop
  | .detached => .accepted task ∈ seen → .began task ∈ seen
  | .oneOff cell => ∃ result, cell.state = .finished result ∧
      (.accepted task ∈ seen → .began task ∈ seen ∨ ∃ mayInterrupt, .cancelled task mayInterrupt ∈ seen) ∧
      (.began task ∉ seen → (∃ mayInterrupt, .cancelled task mayInterrupt ∈ seen) ∧ result = .error .cancelled ∨
        (∀ mayInterrupt, .cancelled task mayInterrupt ∉ seen) ∧ result = .error .shutdown)
  | .periodic state => state.done = true

private theorem Kept.settled {task : Nat} {held : Custody → Nat} {record : Record}
    (kept : Kept task (seen.filter Event.telling) held (some record)) (free : ∀ kind, held kind = 0)
    (still : ∀ cell, record = .oneOff cell → cell.state ≠ .running) : Settled task seen record := by
  cases record with
  | detached =>
    simp only [Kept, free, List.mem_filter, Event.telling, and_true] at kept
    intro accepted
    simpa using (kept.2.2 accepted).2
  | oneOff cell =>
    obtain ⟨-, job⟩ := kept
    unfold JobKept at job
    simp only [free, List.mem_filter, Event.telling, and_true] at job
    split at job
    · omega
    · next running => exact absurd running (still cell rfl)
    · next result finished =>
      refine ⟨result, finished, ?_⟩
      rcases job with ⟨-, began⟩ | ⟨cancelled, discarded⟩ | ⟨-, uncancelled, refused, dropped⟩
      · exact ⟨fun _ => .inl began, fun never => absurd began never⟩
      · exact ⟨fun _ => .inr cancelled, fun _ => .inl ⟨cancelled, discarded⟩⟩
      · exact ⟨fun accepted => absurd accepted refused, fun _ => .inr ⟨uncancelled, dropped⟩⟩
    · exact job.elim
  | periodic state =>
    obtain ⟨-, -, -, done | held⟩ := kept
    · exact done
    · simp [free] at held

private theorem count_map_snd (held : List (Custody × Nat)) (task : Nat) : (held.map Prod.snd).count task =
    held.count (.waiting, task) + held.count (.bound, task) + held.count (.repeating, task) := by
  induction held with
  | nil => rfl
  | cons first held ih =>
    obtain ⟨kind, other⟩ := first
    rw [List.map_cons, List.count_cons, List.count_cons, List.count_cons, List.count_cons, ih]
    cases kind <;> simp <;> omega

private theorem Secure.held_once (secure : Secure s seen) {task : Nat} {cell : TaskCell Int64}
    (isCell : s.shared.cell? task = some cell) (pending : cell.state = .pending) :
    ((holdings s).map Prod.snd).count task = 1 := by
  have kept := secure.kept task
  rw [cell?_eq_some_iff.mp isCell] at kept
  simp only [Kept, JobKept, pending] at kept
  rw [count_map_snd]
  omega

/-- The second half of a shutdown is not due any more once its caller is between calls. -/
theorem Secure.stopped (secure : Secure s seen) (closed : s.shared.immediate.accepting = false)
    (between : ∀ thread ∈ s.threads, BetweenCalls thread.todo) : s.shared.scheduled.stopped = true := by
  rcases secure.closing with accepting | stopped | ⟨thread, member, closing⟩
  · simp [closed] at accepting
  · exact stopped
  · exact absurd closing (between thread member).not_closing

private theorem Secure.emptied (secure : Secure s seen) (light : ∀ i ∈ s.todo, i.Light)
    (stopped : s.shared.scheduled.stopped = true) :
    s.shared.immediate.queue = [] ∧ s.shared.funnel.queue = [] ∧ s.shared.scheduled.queue = [] := by
  have staffed := secure.staffed
  have attended := secure.attended
  rw [filterMap_of_light weighs_immediate light] at staffed
  rw [filterMap_of_light weighs_funnel light] at attended
  exact ⟨staffed.queue_eq_nil, attended.queue_eq_nil, secure.drained stopped⟩

/-- While a task is pending its job is in one queue, or one thread has it in hand. So nothing is left in the queues after
a shutdown once all calls have returned and all workers have ended, and every task is settled. -/
theorem settled_after_shutdown (run : (machine.restrict representable).Run (withClients config calls) s seen) :
    (∀ task cell, s.shared.cell? task = some cell → cell.state = .pending → ((holdings s).map Prod.snd).count task = 1) ∧
    (s.shared.immediate.accepting = false → (∀ thread ∈ s.threads, BetweenCalls thread.todo) →
      s.shared.immediate.queue = [] ∧ s.shared.funnel.queue = [] ∧ s.shared.scheduled.queue = [] ∧
      ∀ task record, s.shared.records[task]? = some record → Settled task seen record) := by
  have secure := Secure.run run
  refine ⟨fun task cell isCell pending => secure.held_once isCell pending, fun closed between => ?_⟩
  have light : ∀ i ∈ s.todo, i.Light := by
    intro i member
    obtain ⟨thread, isThread, here⟩ := List.mem_flatMap.mp member
    exact (between thread isThread).light i here
  obtain ⟨immediate, funnel, scheduled⟩ := secure.emptied light (secure.stopped closed between)
  refine ⟨immediate, funnel, scheduled, fun task record isRecord => ?_⟩
  -- Nobody holds any task now, neither a queue nor a thread, and none is running.
  have free : holdings s = [] := by
    simp [holdings, Stock.held, State.stock, immediate, funnel, scheduled, filterMap_of_light weighs_custody light]
  have kept := secure.kept task
  rw [isRecord, free] at kept
  refine kept.settled (fun _ => rfl) fun cell isCell running => ?_
  have accounted := ((Sound.start config calls).run run.of_restrict).accounted task
  have noStage : stages task s.todo = [] := List.filterMap_eq_nil_iff.mpr fun i member => (light i member).2 task
  rw [isRecord, isCell, noStage] at accounted
  simp [Accounted, running] at accounted

end Run

/-- A client submits a task, two delayed ones and a repeating one, cancels the second delayed one, and shuts the pool
down. -/
def busyClient : System State Own Instruction :=
  withClients ⟨1, 1, 1, 0, "pool"⟩ [[.submit .immediate "short" [[.result 7]], .submit (.after 5) "delayed" [[]],
    .submit (.after 5) "withdrawn" [[]], .submit (.repeating 0 (.fixedDelay 5)) "repeated" [[]], .cancel 2 false, .shutdown]]

/-- The shutdown comes while the repeating task has run and is about to be queued again. -/
def shutWhileRenewing : List (World × Nat) :=
  (List.replicate 23 2 ++ List.replicate 8 1 ++ List.replicate 9 2 ++ List.replicate 19 3 ++ List.replicate 4 1 ++ [2]).map
    (⟨0, false, []⟩, ·)

/-- The delayed task waits in the queue, and in the end it is given up there. -/
theorem settled_while_renewing :
    (∃ s seen cell, (machine.restrict representable).Run busyClient s seen ∧ s.shared.cell? 1 = some cell ∧
      cell.state = .pending ∧ ((holdings s).map Prod.snd).count 1 = 1) ∧
    ∃ s seen, (machine.restrict representable).Run busyClient s seen ∧ s.shared.immediate.accepting = false ∧
      (∀ thread ∈ s.threads, BetweenCalls thread.todo) ∧ s.shared.scheduled.queue = [] ∧
      s.shared.records = [.oneOff ⟨.finished (.ok 7), false, false⟩, .oneOff ⟨.finished (.error .shutdown), false, false⟩,
        .oneOff ⟨.finished (.error .cancelled), true, false⟩, .periodic { done := true, runs := 1 }] ∧
      ∀ task record, s.shared.records[task]? = some record → Settled task seen record := by
  constructor
  · have waits : ((machine.restrict representable).follow (shutWhileRenewing.take 23) (busyClient, [])).map
        (fun past => past.1.shared.cell? 1) = some (some {}) := rfl
    obtain ⟨⟨s, seen⟩, followed, isCell⟩ := Option.map_eq_some_iff.mp waits
    have run := Machine.run_of_follow .start followed
    exact ⟨s, seen, {}, run, isCell, rfl, (settled_after_shutdown run).1 1 {} isCell rfl⟩
  · have ends : ((machine.restrict representable).follow shutWhileRenewing (busyClient, [])).map
        (fun past => (past.1.threads.map Thread.todo, past.1.shared.immediate.accepting, past.1.shared.records)) =
        some ([[], [], [], []], false, [.oneOff ⟨.finished (.ok 7), false, false⟩,
          .oneOff ⟨.finished (.error .shutdown), false, false⟩, .oneOff ⟨.finished (.error .cancelled), true, false⟩,
          .periodic { done := true, runs := 1 }]) := rfl
    obtain ⟨⟨s, seen⟩, followed, same⟩ := Option.map_eq_some_iff.mp ends
    simp only [Prod.mk.injEq] at same
    obtain ⟨todos, closed, records⟩ := same
    have run := Machine.run_of_follow .start followed
    have between : ∀ thread ∈ s.threads, BetweenCalls thread.todo := by
      intro thread member
      have here : thread.todo ∈ [[], [], [], []] := todos ▸ List.mem_map_of_mem member
      have none : thread.todo = [] := by simpa using here
      exact ⟨[], [], by simp, none⟩
    obtain ⟨-, -, queue, settled⟩ := (settled_after_shutdown run).2 closed between
    exact ⟨s, seen, run, closed, between, queue, records, settled⟩

end PeerSubstrate.Executor.Pool
