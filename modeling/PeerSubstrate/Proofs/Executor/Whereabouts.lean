import PeerSubstrate.Proofs.Executor.Passage
import PeerSubstrate.Proofs.Executor.TaskRuns

/-!
# Where a task is

A task with a deadline is in one place at a time, from the call that submits it to its run (`Routed`). A task that has not
been submitted is nowhere (`Known`).
-/

namespace PeerSubstrate.Executor.Pool
open PeerSubstrate.Time PeerSubstrate.Concurrency

/-- The task in the hands of threads. -/
def hands (task : Nat) (threads : List (Thread Own Instruction)) : List Cargo :=
  threads.filterMap fun thread => inHand task thread.todo

/-- The task is there and nowhere else, or it is nowhere. -/
structure Routed (deadline : Instant) (task : Nat) (s : System State Own Instruction) (c : Option Cargo) : Prop where
  tails : ∀ thread ∈ s.threads, ∀ i ∈ thread.todo.tail, i.task? ≠ some task
  follows : ∀ thread ∈ s.threads, ∀ i later, thread.todo = i :: later → i.task? = some task → i.Follows later
  lies : (hands task s.threads ++ s.shared.cargo task).Perm c.toList
  legal : ∀ d ∈ c, d.Legal deadline

section Routed

variable {task : Nat} {deadline : Instant} {world : World} {shared : State} {own : Own} {instruction : Instruction}
  {rest : List Instruction} {before after : List (Thread Own Instruction)} {effect : Effect State Own Instruction Event}
  {s : System State Own Instruction} {c : Option Cargo}

private theorem hands_append (task : Nat) (one two : List (Thread Own Instruction)) :
    hands task (one ++ two) = hands task one ++ hands task two := List.filterMap_append

private theorem hands_cons (task : Nat) (thread : Thread Own Instruction) (threads : List (Thread Own Instruction)) :
    hands task (thread :: threads) = (inHand task thread.todo).toList ++ hands task threads := by
  unfold hands
  rw [List.filterMap_cons]
  cases inHand task thread.todo <;> rfl

/-- The thread in the middle and the queues, apart from all other threads. -/
theorem hands_perm (task : Nat) (thread : Thread Own Instruction) (before after : List (Thread Own Instruction)) (s : State) :
    (hands task (before ++ thread :: after) ++ s.cargo task).Perm
      (hands task (before ++ after) ++ held task thread.todo s) := by
  rw [hands_append, hands_append, hands_cons, held, List.append_assoc, List.append_assoc, List.append_assoc]
  refine List.Perm.append_left _ ?_
  rw [← List.append_assoc, ← List.append_assoc]
  exact List.perm_append_comm.append_right _

/-- A step of a thread carries the task from one place to the next, unless the pool is shut down or the task runs. -/
theorem Routed.step (routed : Routed deadline task ⟨shared, before ++ ⟨own, instruction :: rest⟩ :: after⟩ c)
    (old : task ≠ shared.records.length ∨ effect.shared.records.length ≤ shared.records.length)
    (performed : perform world before.length shared own instruction rest = some effect) :
    (instruction.task? ≠ some task ∧
      Routed deadline task ⟨effect.shared, before ++ effect.thread :: (after ++ effect.started)⟩ c) ∨
    (∃ d d', c = some d ∧ Advances shared instruction d d' ∧
      Routed deadline task ⟨effect.shared, before ++ effect.thread :: (after ++ effect.started)⟩ (some d')) ∨
    c ≠ none ∧ (effect.shared.scheduled.stopped = true ∨ ∃ job, instruction = .run job ∧ job.task = task) := by
  obtain ⟨tails, follows, lies, legal⟩ := routed
  have parts : (hands task (before ++ after) ++ held task (instruction :: rest) shared).Perm c.toList :=
    (hands_perm task ⟨own, instruction :: rest⟩ before after shared).symm.trans lies
  have size := parts.length_eq
  have most : c.toList.length ≤ 1 := by cases c <;> simp
  rw [List.length_append] at size
  have here : ∀ d ∈ held task (instruction :: rest) shared, d ∈ c := by
    intro d member
    exact Option.mem_toList.mp (parts.subset (List.mem_append_right _ member))
  have free : ∀ i ∈ rest, i.task? ≠ some task := tails ⟨own, instruction :: rest⟩ (by simp)
  rcases carries free (fun d member => legal d (here d member)) (by omega) old performed with carried | ⟨there, ends⟩
  · obtain ⟨tails', starts, follows', goesOn⟩ := carried
    have none : hands task effect.started = [] :=
      List.filterMap_eq_nil_iff.mpr fun thread member => inHand_of_free (starts thread member)
    have now := hands_perm task effect.thread before (after ++ effect.started) effect.shared
    rw [← List.append_assoc, hands_append task (before ++ after), none, List.append_nil] at now
    have goes : ∀ c', (hands task (before ++ after) ++ held task effect.thread.todo effect.shared).Perm c'.toList →
        (∀ d ∈ c', d.Legal deadline) →
        Routed deadline task ⟨effect.shared, before ++ effect.thread :: (after ++ effect.started)⟩ c' := by
      intro c' lies' legal'
      refine ⟨?_, ?_, now.trans lies', legal'⟩
      · intro thread member i later
        rcases mem_threads_iff.mp member with rfl | old | new
        · exact tails' i later
        · exact tails thread (mem_of_other old) i later
        · exact starts thread new i (List.mem_of_mem_tail later)
      · intro thread member i later isTodo mine
        rcases mem_threads_iff.mp member with rfl | old | new
        · exact follows' i later isTodo mine
        · exact follows thread (mem_of_other old) i later isTodo mine
        · exact absurd mine (starts thread new i (isTodo ▸ List.mem_cons_self))
    rcases goesOn with ⟨other, same⟩ | ⟨d, d', from_, into, advances⟩
    · exact .inl ⟨other, goes c ((same.append_left _).trans parts) legal⟩
    · have isHere : c = some d := here d (from_.symm.subset List.mem_cons_self)
      subst isHere
      have counted := from_.length_eq
      have nowhere : hands task (before ++ after) = [] := by
        refine List.length_eq_zero_iff.mp ?_
        simp only [Option.toList_some, List.length_singleton] at size counted
        omega
      refine .inr (.inl ⟨d, d', rfl, advances, goes (some d') ?_ ?_⟩)
      · rw [nowhere]
        exact into
      · rintro _ ⟨⟩
        exact advances.legal (legal d rfl)
  · refine .inr (.inr ⟨?_, ends⟩)
    rintro rfl
    cases isHeld : held task (instruction :: rest) shared with
    | nil => exact there isHeld
    | cons d others => exact nomatch here d (isHeld ▸ List.mem_cons_self)

/-- A thread whose next thing is the task has it. -/
theorem Routed.hand (routed : Routed deadline task ⟨shared, before ++ ⟨own, instruction :: rest⟩ :: after⟩ c)
    (mine : instruction.task? = some task) : c = some (.hand instruction) := by
  have parts := (hands_perm task ⟨own, instruction :: rest⟩ before after shared).symm.trans routed.lies
  rw [held_of_eq mine] at parts
  exact Option.mem_toList.mp (parts.subset (List.mem_append_right _ List.mem_cons_self))

/-- No other thread has it then. -/
theorem Routed.alone (routed : Routed deadline task ⟨shared, before ++ ⟨own, instruction :: rest⟩ :: after⟩ c)
    (mine : instruction.task? = some task) {thread : Thread Own Instruction} (member : thread ∈ before ++ after)
    {i : Instruction} {later : List Instruction} (isTodo : thread.todo = i :: later) : i.task? ≠ some task := by
  have parts := (hands_perm task ⟨own, instruction :: rest⟩ before after shared).symm.trans routed.lies
  have size := parts.length_eq
  have most : c.toList.length ≤ 1 := by cases c <;> simp
  rw [held_of_eq mine, List.length_append, List.length_cons] at size
  have nowhere : hands task (before ++ after) = [] := List.length_eq_zero_iff.mp (by omega)
  intro isMine
  have unheld := List.filterMap_eq_nil_iff.mp nowhere thread member
  rw [isTodo, inHand_of_eq isMine] at unheld
  cases unheld

/-- If a thread has the task, it is the thread's next thing. -/
theorem Routed.holder {i : Instruction} (routed : Routed deadline task s (some (.hand i))) :
    ∃ thread ∈ s.threads, ∃ later, thread.todo = i :: later ∧ i.task? = some task ∧ i.Follows later := by
  have there : Cargo.hand i ∈ hands task s.threads ++ s.shared.cargo task := routed.lies.symm.subset List.mem_cons_self
  rcases List.mem_append.mp there with held | queued
  · obtain ⟨thread, member, isHand⟩ := List.mem_filterMap.mp held
    obtain ⟨j, isHead, isHand⟩ := Option.bind_eq_some_iff.mp isHand
    split at isHand
    · next mine =>
      cases isHand
      obtain ⟨later, isTodo⟩ := List.head?_eq_some_iff.mp isHead
      exact ⟨thread, member, later, isTodo, mine, routed.follows thread member i later isTodo mine⟩
    · cases isHand
  · simp [State.cargo, cargoOf] at queued

/-- A task that no thread has is in a queue. -/
theorem Routed.queued {d : Cargo} (routed : Routed deadline task s (some d)) (unheld : ∀ i, d ≠ .hand i) :
    d ∈ s.shared.cargo task := by
  have there : d ∈ hands task s.threads ++ s.shared.cargo task := routed.lies.symm.subset List.mem_cons_self
  refine (List.mem_append.mp there).resolve_left fun held => ?_
  obtain ⟨thread, -, isHand⟩ := List.mem_filterMap.mp held
  obtain ⟨j, -, isHand⟩ := Option.bind_eq_some_iff.mp isHand
  split at isHand <;> cases isHand
  exact unheld j rfl

theorem Routed.funnel {entry : Entry} (routed : Routed deadline task s (some (.funnel entry))) :
    entry ∈ s.shared.funnel.queue ∧ isOf task entry = true := by
  simpa [State.cargo, cargoOf] using routed.queued (by simp)

theorem Routed.scheduled {entry : Entry} (routed : Routed deadline task s (some (.scheduled entry))) :
    entry ∈ s.shared.scheduled.queue ∧ isOf task entry = true := by
  simpa [State.cargo, cargoOf] using routed.queued (by simp)

/-- A call with a new task puts it into the hands of the caller. -/
theorem Routed.submit {id : String} {scripts : List Script}
    (routed : Routed deadline task ⟨shared, before ++ ⟨own, .submit (.atInstant deadline) id scripts :: rest⟩ :: after⟩ none)
    (isNew : shared.records.length = task)
    (performed : perform world before.length shared own (.submit (.atInstant deadline) id scripts) rest = some effect) :
    ∃ job, effect.thread.todo = .draw deadline (.once job) true :: rest ∧
      Routed deadline task ⟨effect.shared, before ++ effect.thread :: (after ++ effect.started)⟩
        (some (.hand (.draw deadline (.once job) true))) ∧
      Pending effect.shared.records task := by
  obtain ⟨tails, follows, lies, -⟩ := routed
  have mine : (Instruction.draw deadline (.once ⟨task, scripts.headD []⟩) true).task? = some task := rfl
  subst isNew
  cases performed
  refine ⟨⟨shared.records.length, scripts.headD []⟩, rfl, ⟨?_, ?_, ?_, ?_⟩, ⟨{}, ?_, rfl⟩⟩
  · intro thread member i later
    rcases mem_threads_iff.mp member with rfl | old | new
    · exact tails ⟨own, .submit (.atInstant deadline) id scripts :: rest⟩ (by simp) i later
    · exact tails thread (mem_of_other old) i later
    · cases new
  · intro thread member i later isTodo isMine
    rcases mem_threads_iff.mp member with rfl | old | new
    · cases isTodo
      trivial
    · exact follows thread (mem_of_other old) i later isTodo isMine
    · cases new
  · have nowhere : hands shared.records.length (before ++ after) ++
        held shared.records.length (.submit (.atInstant deadline) id scripts :: rest) shared = [] :=
      ((hands_perm _ ⟨own, _ :: rest⟩ before after shared).symm.trans lies).eq_nil
    obtain ⟨apart, unqueued⟩ := List.append_eq_nil_iff.mp nowhere
    rw [held_of_ne (by simp [Instruction.task?])] at unqueued
    have now : held shared.records.length (.draw deadline (.once ⟨_, scripts.headD []⟩) true :: rest)
        (shared.submitOnce id) = _ := (held_of_eq mine).trans (congrArg _ unqueued)
    rw [List.append_nil]
    refine (hands_perm _ _ before after _).trans ?_
    rw [apart]
    exact .of_eq now
  · rintro _ ⟨⟩
    exact ⟨rfl, rfl⟩
  · exact List.getElem?_concat_length

theorem length_le_of_touches {records records' : List Record} {todo todo' : List Instruction} {events : List Event}
    (touches : Touches records todo records' todo' events) : records.length ≤ records'.length := by
  cases touches <;> simp

/-- A task whose number has not been given out is nowhere. -/
def Known (s : System State Own Instruction) : Prop :=
  ∀ deadline task, s.shared.records.length ≤ task → Routed deadline task s none

private theorem task?_of_initial {i : Instruction} (isInitial : i.initial = true) : i.task? = none := by
  cases i <;> first | rfl | cases isInitial

theorem Known.start (config : Config) (calls : List (List Call)) : Known (withClients config calls) := by
  intro deadline task _
  have free : ∀ thread ∈ (withClients config calls).threads, ∀ i ∈ thread.todo, i.task? ≠ some task := by
    intro thread member i here
    rw [task?_of_initial (initial_withClients member i here)]
    exact nofun
  refine ⟨fun thread member i later => free thread member i (List.mem_of_mem_tail later), ?_, .of_eq ?_, nofun⟩
  · intro thread member i later isTodo mine
    exact absurd mine (free thread member i (isTodo ▸ List.mem_cons_self))
  · rw [hands, List.filterMap_eq_nil_iff.mpr fun thread member => inHand_of_free (free thread member)]
    rfl

theorem Known.run {t : System State Own Instruction} {seen : List Event} (known : Known t) (sound : Sound t)
    (run : machine.Run t s seen) : Known s := by
  induction run with
  | start => exact known
  | @step s u seen events world i run stepped ih =>
    intro deadline task new
    obtain ⟨_, _, _, _, -, -, touches⟩ := (sound.run run).touches stepped
    have more := length_le_of_touches touches
    obtain ⟨before, own, instruction, rest, after, effect, threads, rfl, performed, rfl, rfl⟩ :=
      Machine.step_eq_some_iff.mp stepped
    obtain ⟨shared, _⟩ := s
    cases threads
    rcases (ih deadline task (Nat.le_trans more new)).step (by simp only at more new; omega) performed with
      ⟨-, routed⟩ | ⟨_, _, none, -⟩ | ⟨some, -⟩
    · exact routed
    · cases none
    · exact absurd rfl some

end Routed

end PeerSubstrate.Executor.Pool
