import PeerSubstrate.Proofs.Executor.Marks

/-!
# Interruption

While the script of a task with a handle is running, its thread has published the mark of that task, and at all other times none
(`Shown`). The mark is set by nothing but a cancellation of the task that may interrupt it (`pressed_iff_happened`). So a script
finds itself interrupted exactly after such a cancellation, whatever has run on its thread before
(`interrupted_iff_cancelled`).
-/

namespace PeerSubstrate.Executor.Pool
open PeerSubstrate.Time PeerSubstrate.Concurrency
open Instruction (unwind)

/-- A mark is published next. -/
def publishes : List Instruction → Bool
  | .publish _ :: _ => true
  | _ => false

/-- With `mark` published, the thread goes on under the marks of the tasks whose scripts it runs, and under none elsewhere. A
mark that a task has published is replaced right after its script, and no other script begins before. -/
def Shown (records : List Record) : Option Nat → List Instruction → Prop
  | _, [] => True
  | _, .publish shown :: rest => Shown records shown rest
  | mark, .caught task :: rest =>
    (if publishes rest then mark = some task ∧ Handled records task else mark = none ∧ records[task]? = some .detached) ∧
      Shown records mark rest
  | mark, i :: rest => (i.works = true → mark = none) ∧ publishes rest = false ∧ Shown records mark rest

/-- The task whose script the thread is running. -/
def body? : List Instruction → Option Nat
  | [] => none
  | .caught task :: _ => some task
  | .publish _ :: _ => none
  | _ :: rest => body? rest

section Shown

variable {records records' : List Record} {mark : Option Nat} {i : Instruction} {new rest : List Instruction} {task : Nat}

/-- A record keeps its kind. -/
structure Stays (record record' : Option Record) : Prop where
  detached : record = some .detached → record' = some .detached
  oneOff : (∃ cell, record = some (.oneOff cell)) → ∃ cell, record' = some (.oneOff cell)
  periodic : (∃ state, record = some (.periodic state)) → ∃ state, record' = some (.periodic state)

private theorem Handled.stays (handled : Handled records task) (stays : Stays records[task]? records'[task]?) :
    Handled records' task :=
  handled.imp stays.oneOff stays.periodic

private theorem Ages.stays {record record' : Option Record} (ages : Ages record record') : Stays record record' := by
  cases ages with
  | absent | fresh => exact ⟨nofun, nofun, nofun⟩
  | detached => exact ⟨id, id, id⟩
  | oneOff => exact ⟨nofun, fun _ => ⟨_, rfl⟩, nofun⟩
  | periodic => exact ⟨nofun, nofun, fun _ => ⟨_, rfl⟩⟩

private theorem Stays.set {old new : Record} {other : Nat} (found : records[other]? = some old)
    (stays : Stays (some old) (some new))
    (task : Nat) : Stays records[task]? (records.set other new)[task]? := by
  by_cases same : other = task
  · subst same
    rw [List.getElem?_set_self (List.getElem?_eq_some_iff.mp found).1, found]
    exact stays
  · rw [List.getElem?_set_ne same]
    exact ⟨id, id, id⟩

private theorem shown_cons (light : i.brackets = false) : Shown records mark (i :: rest) ↔
    (i.works = true → mark = none) ∧ publishes rest = false ∧ Shown records mark rest := by
  cases i <;> first | rfl | cases light

private theorem publishes_append (light : ∀ j ∈ new, j.brackets = false) (behind : publishes rest = false) :
    publishes (new ++ rest) = false := by
  cases new with
  | nil => exact behind
  | cons j new =>
    have first := light j List.mem_cons_self
    cases j <;> first | rfl | cases first

private theorem shown_append (light : ∀ j ∈ new, j.brackets = false) (idle : ∀ j ∈ new, j.works = true → mark = none)
    (behind : publishes rest = false) (shown : Shown records mark rest) : Shown records mark (new ++ rest) := by
  induction new with
  | nil => exact shown
  | cons j new ih =>
    obtain ⟨first, others⟩ := List.forall_mem_cons.mp light
    obtain ⟨idleFirst, idleOthers⟩ := List.forall_mem_cons.mp idle
    exact (shown_cons first).mpr ⟨idleFirst, publishes_append others behind, ih others idleOthers⟩

/-- A panic does not pass over a place where a mark is published. -/
theorem Shown.unwind (shown : Shown records mark rest) (behind : publishes rest = false) : Shown records mark (unwind rest) := by
  induction rest with
  | nil => trivial
  | cons i rest ih =>
    rw [Instruction.unwind, List.dropWhile_cons]
    split
    · next passes =>
      have light : i.brackets = false := by
        cases i with
        | publish => cases behind
        | caught => cases passes
        | _ => rfl
      obtain ⟨-, next, shown⟩ := (shown_cons light).mp shown
      exact ih shown next
    · exact shown

private theorem steady_acts (script : Script) : ∀ j ∈ script.map Instruction.act, j.brackets = false ∧ j.works = false := by
  intro j member
  obtain ⟨action, -, rfl⟩ := List.mem_map.mp member
  exact ⟨rfl, rfl⟩

private theorem shown_acts (script : Script) (behind : publishes rest = false) (shown : Shown records mark rest) :
    Shown records mark (script.map .act ++ rest) := by
  refine shown_append (fun j member => (steady_acts script j member).1) (fun j member works => ?_) behind shown
  rw [(steady_acts script j member).2] at works
  cases works

private theorem shown_guarded {previous : Option Nat} (script : Script) (handled : Handled records task)
    (shown : Shown records previous rest) : Shown records mark (Instruction.guarded task script previous ++ rest) := by
  have ends : Shown records (some task) (.caught task :: .publish previous :: rest) := ⟨⟨rfl, handled⟩, shown⟩
  have inside := shown_acts script rfl ends
  simpa [Instruction.guarded, Shown] using inside

private theorem Shown.stays (shown : Shown records mark rest) (stays : ∀ task : Nat, Stays records[task]? records'[task]?) :
    Shown records' mark rest := by
  induction rest generalizing mark with
  | nil => trivial
  | cons i rest ih =>
    cases i with
    | publish next => exact @ih next shown
    | caught task =>
      refine ⟨?_, ih shown.2⟩
      have here := shown.1
      split at here
      · next follows => exact (if_pos follows).mpr ⟨here.1, here.2.stays (stays task)⟩
      · next follows => exact (if_neg follows).mpr ⟨here.1, (stays task).detached here.2⟩
    | _ => exact ⟨shown.1, shown.2.1, ih shown.2.2⟩

/-- In the script of a task that task's mark is published, unless it has none. -/
theorem Shown.body (shown : Shown records mark rest) (inside : body? rest = some task) :
    (mark = some task ∧ Handled records task) ∨ (mark = none ∧ records[task]? = some .detached) := by
  induction rest with
  | nil => cases inside
  | cons i rest ih =>
    cases i with
    | publish => cases inside
    | caught other =>
      cases inside
      have here := shown.1
      split at here
      · exact .inl here
      · exact .inr here
    | _ => exact ih shown.2.2 inside

end Shown

/-- Nobody is about to mark a repeating task, or the thread does so before anything else. -/
inductive Prompt : List Instruction → Prop
  | idle {todo} : (∀ i ∈ todo, i.settles = false) → Prompt todo
  | stopping {task rest} : (∀ i ∈ rest, i.settles = false) → Prompt (.markCancelled task :: rest)
  | interrupting {task rest} : (∀ i ∈ rest, i.settles = false) → Prompt (.markCancelled task :: .markInterrupt task :: rest)
  | marking {task rest} : (∀ i ∈ rest, i.settles = false) → Prompt (.markInterrupt task :: rest)

/-- A repeating task is marked as interrupted. -/
def marked : Option Record → Bool
  | some (.periodic state) => state.interrupt
  | _ => false

/-- A repeating task is done. -/
def isDone : Option Record → Bool
  | some (.periodic state) => state.done
  | _ => false

section Prompt

variable {i : Instruction} {new rest : List Instruction} {task : Nat}

private theorem Prompt.others (prompt : Prompt (i :: rest)) (light : i.settles = false) : ∀ j ∈ rest, j.settles = false := by
  cases prompt with
  | idle none => exact (List.forall_mem_cons.mp none).2
  | stopping | interrupting | marking => cases light

private theorem interrupts_of_light (light : i.settles = false) (task : Nat) : i.interrupts task = false := by
  cases i <;> first | rfl | cases light

private theorem countP_light (light : ∀ i ∈ rest, i.settles = false) (task : Nat) :
    rest.countP (Instruction.interrupts task) = 0 :=
  List.countP_eq_zero.mpr fun i member => by simp [interrupts_of_light (light i member)]

private theorem settles_acts (script : Script) : ∀ j ∈ script.map Instruction.act, j.settles = false := by
  intro j member
  obtain ⟨action, -, rfl⟩ := List.mem_map.mp member
  rfl

private theorem settles_guarded (task : Nat) (script : Script) (previous : Option Nat) :
    ∀ j ∈ Instruction.guarded task script previous, j.settles = false := by
  intro j member
  simp only [Instruction.guarded, List.mem_append, List.mem_cons, List.not_mem_nil, or_false] at member
  rcases member with (rfl | inside) | rfl | rfl
  · rfl
  · exact settles_acts script j inside
  · rfl
  · rfl

end Prompt

/-! ## Steps -/

/-- The mark of a task. -/
def flag : Option Record → Bool
  | some (.oneOff cell) => cell.interrupt
  | some (.periodic state) => state.interrupt
  | _ => false

/-- A one-off task is running, or a repeating one has not been stopped. -/
def Stoppable (record : Option Record) : Prop :=
  (∃ cell, record = some (.oneOff cell) ∧ cell.state = .running) ∨ ∃ state, record = some (.periodic state) ∧ state.done = false

section Heeds

variable {records records' : List Record} {thread thread' : Thread Own Instruction} {events : List Event} {task : Nat}

private theorem Heeds.stays (heeds : Heeds records thread records' thread' events) (task : Nat) :
    Stays records[task]? records'[task]? := by
  cases heeds with
  | on _ _ _ _ leaves | ran _ _ _ _ _ _ _ leaves | settled leaves => exact (leaves.ages task).stays
  | cancelled found => exact .set found ⟨nofun, fun _ => ⟨_, rfl⟩, nofun⟩ task
  | stopped found | interrupted found => exact .set found ⟨nofun, nofun, fun _ => ⟨_, rfl⟩⟩ task
  | raised | detached | ended | published | void => exact ⟨id, id, id⟩

private theorem Heeds.shown (heeds : Heeds records thread records' thread' events)
    (shown : Shown records thread.own.interrupt thread.todo) : Shown records' thread'.own.interrupt thread'.todo := by
  refine Shown.stays ?_ heeds.stays
  cases heeds with
  | on light _ same follows =>
    obtain ⟨idle, behind, rest⟩ := (shown_cons light).mp shown
    rw [← same] at idle rest
    exact shown_append (fun j member => (follows j member).1) (fun j member works => idle ((follows j member).2.2 works)) behind rest
  | raised light _ same =>
    obtain ⟨-, behind, rest⟩ := (shown_cons light).mp shown
    rw [← same] at rest
    exact rest.unwind behind
  | ran script light _ _ _ handled follows =>
    obtain ⟨idle, behind, rest⟩ := (shown_cons light).mp shown
    exact shown_guarded script handled ((shown_cons follows.1).mpr ⟨fun works => idle (follows.2.2 works), behind, rest⟩)
  | detached same isDetached =>
    obtain ⟨idle, behind, rest⟩ := (shown_cons rfl).mp shown
    rw [← same] at idle rest
    exact shown_acts _ rfl ⟨(if_neg (by simp [behind])).mpr ⟨idle rfl, isDetached⟩, rest⟩
  | ended => exact shown.2
  | published => exact shown
  | cancelled =>
    obtain ⟨-, behind, rest⟩ := (shown_cons rfl).mp shown
    exact (shown_cons rfl).mpr ⟨nofun, behind, rest⟩
  | @stopped _ task rest' _ mayInterrupt logged =>
    obtain ⟨-, behind, rest⟩ := (shown_cons rfl).mp shown
    cases mayInterrupt with
    | true =>
      have light : ∀ j ∈ [Instruction.markCancelled task, .markInterrupt task, .answer task true logged], j.brackets = false := by
        simp [Instruction.brackets]
      exact shown_append light (by simp [Instruction.works]) behind rest
    | false =>
      have light : ∀ j ∈ [Instruction.markCancelled task, .answer task true logged], j.brackets = false := by
        simp [Instruction.brackets]
      exact shown_append light (by simp [Instruction.works]) behind rest
  | settled | interrupted | void => exact shown.2.2

private theorem Heeds.prompt (heeds : Heeds records thread records' thread' events) (prompt : Prompt thread.todo) :
    Prompt thread'.todo := by
  cases heeds with
  | on _ light _ follows => exact .idle (List.forall_mem_append.mpr ⟨fun j member => (follows j member).2.1, prompt.others light⟩)
  | raised _ light => exact .idle fun j member => prompt.others light j ((List.dropWhile_suffix _).subset member)
  | ran script _ light _ _ _ follows =>
    exact .idle (List.forall_mem_append.mpr
      ⟨settles_guarded _ _ _, List.forall_mem_cons.mpr ⟨follows.2.1, prompt.others light⟩⟩)
  | detached =>
    exact .idle (List.forall_mem_append.mpr ⟨settles_acts _, List.forall_mem_cons.mpr ⟨rfl, prompt.others rfl⟩⟩)
  | ended | published => exact .idle (prompt.others rfl)
  | cancelled => exact .idle (List.forall_mem_cons.mpr ⟨rfl, prompt.others rfl⟩)
  | @stopped _ task rest _ mayInterrupt logged =>
    have behind : ∀ j ∈ Instruction.answer task true logged :: rest, j.settles = false :=
      List.forall_mem_cons.mpr ⟨rfl, prompt.others rfl⟩
    cases mayInterrupt with
    | true => exact .interrupting behind
    | false => exact .stopping behind
  | settled =>
    cases prompt with
    | idle none => cases none _ List.mem_cons_self
    | stopping none => exact .idle none
    | interrupting none => exact .marking none
  | interrupted | void =>
    cases prompt with
    | idle none => cases none _ List.mem_cons_self
    | marking none => exact .idle none

private theorem Ages.marks {record record' : Option Record} (ages : Ages record record') :
    marked record' = marked record ∧ flag record' = flag record ∧ (isDone record = true → isDone record' = true) := by
  cases ages with
  | absent | detached => exact ⟨rfl, rfl, id⟩
  | fresh fresh => cases fresh <;> exact ⟨rfl, rfl, nofun⟩
  | oneOff same => exact ⟨rfl, same, nofun⟩
  | periodic same lasting => exact ⟨same, same, lasting⟩

/-- What a step does to the mark of one task, of which so many threads are about to set it; `now` says that a
cancellation interrupts the task. It finds a one-off task, or a repeating one, which is stopped first and marked by a
step of its own. -/
inductive Presses : Option Record → Nat → Option Record → Nat → (now : Prop) → Prop
  | same {record record' count now} : Ages record record' → ¬ now → Presses record count record' count now
  | cancelled {cell mayInterrupt now} : (now ↔ cell.state = .running ∧ mayInterrupt = true) →
      Presses (some (.oneOff cell)) 0 (some (.oneOff (cell.cancel mayInterrupt).2)) 0 now
  | stopped {state mayInterrupt now} : state.done = false → (now ↔ mayInterrupt = true) →
      Presses (some (.periodic state)) 0 (some (.periodic { state with done := true })) mayInterrupt.toNat now
  | interrupted {state now} : ¬ now → Presses (some (.periodic state)) 1 (some (.periodic { state with interrupt := true })) 0 now
  | void {record now} : (∀ state, record ≠ some (.periodic state)) → ¬ now → Presses record 1 record 0 now

private theorem Presses.light {record record' : Option Record} {one two : List Instruction} {now : Prop}
    (before : ∀ i ∈ one, i.settles = false) (after : ∀ i ∈ two, i.settles = false) (ages : Ages record record')
    (never : ¬ now) : Presses record (one.countP (Instruction.interrupts task)) record' (two.countP (Instruction.interrupts task)) now := by
  rw [countP_light before, countP_light after]
  exact .same ages never

/-- A step that replaces the record of one task leaves the marks of all others alone. -/
theorem Presses.set {old new : Record} {other before after : Nat} {now : Prop} (found : records[other]? = some old)
    (here : other = task → Presses (some old) before (some new) after now)
    (elsewhere : other ≠ task → after = before ∧ ¬ now) :
    Presses records[task]? before (records.set other new)[task]? after now := by
  by_cases mine : other = task
  · subst mine
    rw [found, List.getElem?_set_self (List.getElem?_eq_some_iff.mp found).1]
    exact here rfl
  · obtain ⟨rfl, never⟩ := elsewhere mine
    rw [List.getElem?_set_ne mine]
    exact .same (.same _) never

private theorem Heeds.presses (heeds : Heeds records thread records' thread' events) (prompt : Prompt thread.todo)
    (task : Nat) :
    Presses records[task]? (thread.todo.countP (Instruction.interrupts task)) records'[task]?
      (thread'.todo.countP (Instruction.interrupts task)) (.cancelled task true ∈ events ∧ Stoppable records[task]?) := by
  have never : ∀ {events : List Event} {stoppable : Prop}, Calm events → ¬ (.cancelled task true ∈ events ∧ stoppable) :=
    fun calm now => calm _ _ now.1
  have all : ∀ {i : Instruction} {rest : List Instruction}, i.settles = false → Prompt (i :: rest) →
      ∀ j ∈ i :: rest, j.settles = false := fun light prompt => List.forall_mem_cons.mpr ⟨light, prompt.others light⟩
  cases heeds with
  | on _ light _ follows leaves =>
    exact .light (all light prompt) (List.forall_mem_append.mpr ⟨fun j member => (follows j member).2.1, prompt.others light⟩)
      (leaves.ages task) (never leaves.quiet)
  | raised _ light =>
    exact .light (all light prompt) (fun j member => prompt.others light j ((List.dropWhile_suffix _).subset member))
      (.same _) (by simp)
  | ran script _ light _ _ _ follows leaves =>
    exact .light (all light prompt) (List.forall_mem_append.mpr
      ⟨settles_guarded _ _ _, List.forall_mem_cons.mpr ⟨follows.2.1, prompt.others light⟩⟩) (leaves.ages task) (never leaves.quiet)
  | detached _ _ calm =>
    exact .light (all rfl prompt)
      (List.forall_mem_append.mpr ⟨settles_acts _, List.forall_mem_cons.mpr ⟨rfl, prompt.others rfl⟩⟩) (.same _) (never calm)
  | ended calm => exact .light (all rfl prompt) (prompt.others rfl) (.same _) (never calm)
  | published => exact .light (all rfl prompt) (prompt.others rfl) (.same _) (by simp)
  | @cancelled _ other rest cell mayInterrupt logged events found told =>
    have after : ∀ j ∈ Instruction.answer other (cell.cancel mayInterrupt).1 logged :: rest, j.settles = false :=
      List.forall_mem_cons.mpr ⟨rfl, prompt.others rfl⟩
    rw [countP_light (all rfl prompt), countP_light after]
    refine .set found (fun mine => .cancelled ?_) (fun others => ⟨rfl, fun now => ?_⟩)
    · rw [told, ← mine, found]
      constructor
      · rintro ⟨⟨-, isTrue, -⟩, ⟨_, same, running⟩ | ⟨_, same, -⟩⟩ <;> cases same
        exact ⟨running, isTrue.symm⟩
      · rintro ⟨running, rfl⟩
        exact ⟨⟨rfl, rfl, by rw [TaskCell.cancel, running]⟩, .inl ⟨cell, rfl, running⟩⟩
    · exact others ((told _ _).mp now.1).1.symm
  | @stopped _ other rest state mayInterrupt logged found going =>
    have none := countP_light (prompt.others (i := .cancel other mayInterrupt logged) rfl) task
    have after : (Instruction.markCancelled other :: ((if mayInterrupt = true then [.markInterrupt other] else []) ++
        .answer other true logged :: rest)).countP (Instruction.interrupts task) = if other = task then mayInterrupt.toNat else 0 := by
      cases mayInterrupt <;> simp [Instruction.interrupts, List.countP_cons, none]
    rw [countP_light (all rfl prompt), after]
    refine .set found (fun mine => ?_) (fun others => ⟨if_neg others, fun now => ?_⟩)
    · rw [if_pos mine]
      refine .stopped going ?_
      rw [← mine, found]
      simp [Stoppable, going]
    · exact others (Event.cancelled.inj (List.mem_singleton.mp now.1)).1.symm
  | settled leaves => exact .same (leaves.ages task) (by simp)
  | @interrupted _ other rest state found =>
    cases prompt with
    | idle none => cases none _ List.mem_cons_self
    | marking none =>
      rw [List.countP_cons, countP_light none, Nat.zero_add]
      refine .set found (fun mine => ?_) (fun others => ⟨?_, by simp⟩)
      · rw [if_pos (by simpa [Instruction.interrupts] using mine)]
        exact .interrupted (by simp)
      · rw [if_neg (by simpa [Instruction.interrupts] using others)]
  | @void _ other rest noRepeat =>
    cases prompt with
    | idle none => cases none _ List.mem_cons_self
    | marking none =>
      rw [List.countP_cons, countP_light none, Nat.zero_add]
      by_cases mine : other = task
      · rw [if_pos (by simpa [Instruction.interrupts] using mine)]
        exact .void (mine ▸ noRepeat) (by simp)
      · rw [if_neg (by simpa [Instruction.interrupts] using mine)]
        exact .same (.same _) (by simp)

/-- At most one thread is about to mark a repeating task, which is done then. -/
theorem Presses.once {record record' : Option Record} {before after : Nat} {now : Prop}
    (presses : Presses record before record' after now) :
    after + (marked record').toNat + (isDone record).toNat ≤ before + (marked record).toNat + (isDone record').toNat := by
  cases presses with
  | same ages =>
    obtain ⟨same, -, lasting⟩ := ages.marks
    rw [same]
    have grown : (isDone record).toNat ≤ (isDone record').toNat := by
      cases isOver : isDone record with
      | false => exact Nat.zero_le _
      | true => exact Nat.le_of_eq (congrArg Bool.toNat (lasting isOver).symm)
    omega
  | cancelled => simp [marked, isDone]
  | @stopped state mayInterrupt _ going =>
    have bit := Bool.toNat_le mayInterrupt
    simp only [marked, isDone, going, Bool.toNat_true, Bool.toNat_false]
    omega
  | @interrupted state =>
    simp only [marked, isDone, Bool.toNat_true]
    omega
  | void => omega

/-- The task is marked, or about to be, after this step if it was before or a cancellation interrupts it now. -/
theorem Presses.pressed {record record' : Option Record} {before after others : Nat} {now : Prop}
    (presses : Presses record before record' after now) (once : before + others ≤ (isDone record).toNat) :
    (flag record' = true ∨ 0 < after + others) ↔ (flag record = true ∨ 0 < before + others) ∨ now := by
  cases presses with
  | same ages never =>
    rw [ages.marks.2.1]
    simp [never]
  | @cancelled cell mayInterrupt now interrupts =>
    rw [interrupts]
    cases state : cell.state <;> simp [flag, TaskCell.cancel, state]
    tauto
  | @stopped state mayInterrupt now going interrupts =>
    have none : others = 0 := by
      simp only [isDone, going, Bool.toNat_false] at once
      omega
    rw [interrupts, none]
    cases mayInterrupt <;> simp [flag]
  | interrupted =>
    have some : 0 < 1 + others := by omega
    simp [flag, some]
  | @void record now noRepeat never =>
    have none : isDone record = false := by
      unfold isDone
      split
      · exact absurd rfl (noRepeat _)
      · rfl
    rw [none, Bool.toNat_false] at once
    omega

end Heeds

/-! ## Runs -/

/-- What holds along every run. -/
structure Heeded (s : System State Own Instruction) : Prop where
  shown : ∀ thread ∈ s.threads, Shown s.shared.records thread.own.interrupt thread.todo
  prompt : ∀ thread ∈ s.threads, Prompt thread.todo
  once : ∀ task, s.todo.countP (Instruction.interrupts task) + (marked s.shared.records[task]?).toNat ≤
    (isDone s.shared.records[task]?).toNat

/-- The task is marked, or a thread is about to mark it. -/
def Pressed (task : Nat) (s : System State Own Instruction) : Prop :=
  s.shared.interrupted task = true ∨ .markInterrupt task ∈ s.todo

/-- In a step of the run `event` was seen, and `before` held right before that step. -/
def Happened (before : System State Own Instruction → Prop) (event : Event) (origin s : System State Own Instruction)
    (seen : List Event) : Prop :=
  ∃ t u earlier events later world i, machine.Run origin t earlier ∧ before t ∧ machine.step world i t = some (u, events) ∧
    event ∈ events ∧ machine.Run u s later ∧ seen = earlier ++ events ++ later

/-- A cancellation that may interrupt the task took effect in the course of the run, and found it running, or as a repeating one
not stopped yet. -/
def Interrupted (task : Nat) (origin s : System State Own Instruction) (seen : List Event) : Prop :=
  Happened (fun t => Stoppable t.shared.records[task]?) (.cancelled task true) origin s seen

section Step

variable {world : World} {before after : List (Thread Own Instruction)} {own : Own} {instruction : Instruction}
  {rest : List Instruction} {effect : Effect State Own Instruction Event} {shared : State} {task : Nat}

/-- A new thread has published nothing, and is a worker. -/
theorem started_of_perform {me : Nat} (performed : perform world me shared own instruction rest = some effect) :
    ∀ thread ∈ effect.started, thread.own.interrupt = none ∧ thread.todo = [.immediate .park] := by
  by_cases isImmediate : ∃ step, instruction = .immediate step
  · obtain ⟨step, rfl⟩ := isImmediate
    obtain ⟨⟨immediate, next⟩, -, rfl⟩ := Option.map_eq_some_iff.mp performed
    intro thread member
    obtain ⟨one, -, starts⟩ := List.mem_filterMap.mp member
    cases one <;> cases starts
    exact ⟨rfl, rfl⟩
  · have none : effect.started = [] := by
      by_cases outside : instruction.pooled = false
      · exact (aside_of_perform outside performed).started
      cases instruction with
      | immediate step => exact absurd ⟨step, rfl⟩ isImmediate
      | draw | funnel | closeImmediate | closeScheduled =>
        cases performed
        rfl
      | push =>
        simp only [perform] at performed
        split at performed <;> cases performed <;> rfl
      | take =>
        simp only [perform, performTake] at performed
        split at performed
        · cases performed
          rfl
        · cases performed
        · split at performed <;> cases performed <;> rfl
      | _ => exact absurd rfl outside
    rw [none]
    exact List.forall_mem_nil _

private theorem Borne.heeds (borne : Borne ⟨shared, before ++ ⟨own, instruction :: rest⟩ :: after⟩)
    (performed : perform world before.length shared own instruction rest = some effect) :
    Heeds shared.records ⟨own, instruction :: rest⟩ effect.shared.records effect.thread effect.events :=
  heeds_of_perform (fun _ isRun => borne.plain (isRun ▸ todo_mem))
    (fun _ isFire => borne.repeats todo_mem (congrArg Instruction.custody? isFire)) performed

private theorem Heeded.presses (heeded : Heeded ⟨shared, before ++ ⟨own, instruction :: rest⟩ :: after⟩)
    (borne : Borne ⟨shared, before ++ ⟨own, instruction :: rest⟩ :: after⟩)
    (performed : perform world before.length shared own instruction rest = some effect) (task : Nat) :
    ∃ one one' others, Presses shared.records[task]? one effect.shared.records[task]? one'
        (.cancelled task true ∈ effect.events ∧ Stoppable shared.records[task]?) ∧
      (System.todo ⟨shared, before ++ ⟨own, instruction :: rest⟩ :: after⟩).countP (Instruction.interrupts task) = one + others ∧
      (System.todo ⟨effect.shared, before ++ effect.thread :: (after ++ effect.started)⟩).countP (Instruction.interrupts task) =
        one' + others := by
  have presses := (borne.heeds performed).presses (heeded.prompt _ mem_middle) task
  have none : (effect.started.flatMap Thread.todo).countP (Instruction.interrupts task) = 0 := by
    refine List.countP_eq_zero.mpr fun i member => ?_
    obtain ⟨thread, isThread, here⟩ := List.mem_flatMap.mp member
    rw [(started_of_perform performed thread isThread).2] at here
    cases List.mem_singleton.mp here
    exact Bool.noConfusion
  refine ⟨_, _, ((before ++ after).flatMap Thread.todo).countP (Instruction.interrupts task), presses, countP_todo _, ?_⟩
  rw [countP_todo, ← List.append_assoc, List.flatMap_append, List.countP_append, none, Nat.add_zero]

theorem Heeded.step (heeded : Heeded ⟨shared, before ++ ⟨own, instruction :: rest⟩ :: after⟩)
    (borne : Borne ⟨shared, before ++ ⟨own, instruction :: rest⟩ :: after⟩)
    (performed : perform world before.length shared own instruction rest = some effect) :
    Heeded ⟨effect.shared, before ++ effect.thread :: (after ++ effect.started)⟩ := by
  have heeds := borne.heeds performed
  constructor
  case shown =>
    intro thread member
    rcases mem_threads_iff.mp member with rfl | other | started
    · exact heeds.shown (heeded.shown _ mem_middle)
    · exact (heeded.shown thread (mem_of_other other)).stays heeds.stays
    · obtain ⟨none, isWorker⟩ := started_of_perform performed thread started
      rw [none, isWorker]
      exact ⟨fun _ => rfl, rfl, trivial⟩
  case prompt =>
    intro thread member
    rcases mem_threads_iff.mp member with rfl | other | started
    · exact heeds.prompt (heeded.prompt _ mem_middle)
    · exact heeded.prompt thread (mem_of_other other)
    · rw [(started_of_perform performed thread started).2]
      exact .idle (by simp [Instruction.settles])
  case once =>
    intro task
    obtain ⟨one, one', others, presses, total, total'⟩ := heeded.presses borne performed task
    have kept := heeded.once task
    have moved := presses.once
    rw [total] at kept
    rw [total']
    dsimp only at kept ⊢
    omega

private theorem mem_iff_countP {s : System State Own Instruction} :
    .markInterrupt task ∈ s.todo ↔ 0 < s.todo.countP (Instruction.interrupts task) := by
  rw [List.countP_pos_iff]
  constructor
  · exact fun member => ⟨_, member, by simp [Instruction.interrupts]⟩
  · rintro ⟨i, member, interrupts⟩
    cases i <;> simp [Instruction.interrupts] at interrupts
    exact interrupts ▸ member

private theorem interrupted_eq_flag (task : Nat) (s : State) : s.interrupted task = flag s.records[task]? := by
  unfold State.interrupted flag
  rcases s.records[task]? with _ | _ | _ | _ <;> rfl

private theorem Heeded.pressed (heeded : Heeded ⟨shared, before ++ ⟨own, instruction :: rest⟩ :: after⟩)
    (borne : Borne ⟨shared, before ++ ⟨own, instruction :: rest⟩ :: after⟩)
    (performed : perform world before.length shared own instruction rest = some effect) (task : Nat) :
    Pressed task ⟨effect.shared, before ++ effect.thread :: (after ++ effect.started)⟩ ↔
      Pressed task ⟨shared, before ++ ⟨own, instruction :: rest⟩ :: after⟩ ∨
        (.cancelled task true ∈ effect.events ∧ Stoppable shared.records[task]?) := by
  obtain ⟨one, one', others, presses, total, total'⟩ := heeded.presses borne performed task
  have kept := heeded.once task
  rw [total] at kept
  rw [Pressed, Pressed, mem_iff_countP, mem_iff_countP, total, total', interrupted_eq_flag, interrupted_eq_flag]
  exact presses.pressed (Nat.le_trans (Nat.le_add_right _ _) kept)

end Step

section Run

variable {config : Config} {calls : List (List Call)} {origin s t u : System State Own Instruction} {seen later : List Event}
  {thread : Thread Own Instruction} {task : Nat}

theorem Heeded.start (config : Config) (calls : List (List Call)) : Heeded (withClients config calls) := by
  have calm : ∀ thread ∈ (withClients config calls).threads, ∀ i ∈ thread.todo, i.brackets = false ∧ i.settles = false := by
    intro thread member i here
    have isInitial := initial_withClients member i here
    cases i <;> first | exact ⟨rfl, rfl⟩ | cases isInitial
  have unpublished : ∀ thread ∈ (withClients config calls).threads, thread.own.interrupt = none := by
    intro thread member
    simp only [withClients, initial, List.mem_append, List.mem_cons, List.mem_map] at member
    rcases member with (rfl | ⟨number, -, rfl⟩) | ⟨calls, -, rfl⟩ <;> rfl
  constructor
  case shown =>
    intro thread member
    rw [unpublished thread member, ← List.append_nil thread.todo]
    exact shown_append (fun i here => (calm thread member i here).1) (fun _ _ _ => rfl) rfl trivial
  case prompt => exact fun thread member => .idle fun i here => (calm thread member i here).2
  case once =>
    intro task
    have none : (withClients config calls).todo.countP (Instruction.interrupts task) = 0 := by
      refine countP_light (fun i member => ?_) task
      obtain ⟨thread, isThread, here⟩ := List.mem_flatMap.mp member
      exact (calm thread isThread i here).2
    rw [none]
    exact Nat.le_refl 0

theorem Heeded.run (run : machine.Run (withClients config calls) s seen) : Heeded s :=
  run.along (.start config calls) fun past heeded performed => heeded.step (.run past) performed

/-- A step from a state that a run has led to. -/
theorem pressed_of_step {world : World} {i : Nat} {events : List Event} (run : machine.Run (withClients config calls) t seen)
    (stepped : machine.step world i t = some (u, events)) (task : Nat) :
    Pressed task u ↔ Pressed task t ∨ (.cancelled task true ∈ events ∧ Stoppable t.shared.records[task]?) := by
  have heeded := Heeded.run run
  have borne := Borne.run run
  obtain ⟨before, own, instruction, rest, after, effect, threads, rfl, performed, rfl, rfl⟩ :=
    Machine.step_eq_some_iff.mp stepped
  obtain ⟨shared, _⟩ := t
  cases threads
  exact heeded.pressed borne performed task

private theorem Pressed.lasts (run : machine.Run (withClients config calls) t seen) (more : machine.Run t u later)
    (pressed : Pressed task t) : Pressed task u := by
  induction more with
  | start => exact pressed
  | step world i more stepped ih => exact (pressed_of_step (run.trans more) stepped task).mpr (.inl ih)

/-- The mark of a task is set, or about to be, exactly after a cancellation that interrupts the task. -/
theorem pressed_iff_interrupted (run : machine.Run (withClients config calls) s seen) :
    Pressed task s ↔ Interrupted task (withClients config calls) s seen := by
  constructor
  · intro pressed
    induction run with
    | start =>
      have fresh : flag (withClients config calls).shared.records[task]? = false := rfl
      rcases pressed with marked | marking
      · rw [interrupted_eq_flag, fresh] at marked
        cases marked
      · obtain ⟨thread, isThread, here⟩ := List.mem_flatMap.mp marking
        cases initial_withClients isThread _ here
    | @step t u seen events world i run stepped ih =>
      rcases (pressed_of_step run stepped task).mp pressed with earlier | ⟨told, stoppable⟩
      · obtain ⟨t', u', before, events', later, world', i', first, held, happened, told, more, rfl⟩ := ih earlier
        exact ⟨t', u', before, events', later ++ events, world', i', first, held, happened, told, more.step world i stepped,
          by simp only [List.append_assoc]⟩
      · exact ⟨t, u, seen, events, [], world, i, run, stoppable, stepped, told, .start, (List.append_nil _).symm⟩
  · rintro ⟨t, u, earlier, events, later, world, i, first, stoppable, happened, told, more, rfl⟩
    exact ((pressed_of_step first happened task).mpr (.inr ⟨told, stoppable⟩)).lasts (first.step world i happened) more

/-- What a script on this thread is told when it asks whether it has been interrupted. -/
def Own.told (own : Own) (s : State) : Bool := (own.interrupt.map s.interrupted).getD false

/-- Interruptions stay with their task. In the script of a task with a handle the answer is yes if and only if a cancellation
before has interrupted that task: it found the one-off task running, or was the first to stop the repeating one and has got as
far as to mark it. In the script of a task without a handle the answer is no. -/
theorem interrupted_iff_cancelled (run : machine.Run (withClients config calls) s seen) (member : thread ∈ s.threads)
    (inside : body? thread.todo = some task) :
    (∀ world me rest, perform world me s.shared thread.own (.act .reportInterrupt) rest =
      goOn s.shared thread.own rest [] [.logged (answerLine "interrupted" (thread.own.told s.shared))]) ∧
    ((∃ cell, s.shared.cell? task = some cell) ∧
        (thread.own.told s.shared = true ↔ Interrupted task (withClients config calls) s seen) ∨
      (∃ state, s.shared.periodic? task = some state) ∧
        (thread.own.told s.shared = true ↔
          Interrupted task (withClients config calls) s seen ∧ .markInterrupt task ∉ s.todo) ∨
      s.shared.records[task]? = some .detached ∧ thread.own.told s.shared = false) := by
  refine ⟨fun _ _ _ => rfl, ?_⟩
  have heeded := Heeded.run run
  have pressed : Pressed task s ↔ _ := pressed_iff_interrupted run
  have once := heeded.once task
  rcases (heeded.shown thread member).body inside with ⟨published, handled⟩ | ⟨unpublished, detached⟩
  · have answer : thread.own.told s.shared = flag s.shared.records[task]? := by
      rw [Own.told, published, ← interrupted_eq_flag]
      rfl
    rw [Pressed, interrupted_eq_flag, mem_iff_countP] at pressed
    rw [answer, ← pressed]
    rcases handled with ⟨cell, found⟩ | ⟨state, found⟩
    · refine .inl ⟨⟨cell, cell?_eq_some_iff.mpr found⟩, ?_⟩
      have none : s.todo.countP (Instruction.interrupts task) = 0 := by
        rw [found] at once
        simp only [isDone, Bool.toNat_false] at once
        omega
      rw [none]
      simp
    · refine .inr (.inl ⟨⟨state, periodic?_eq_some_iff.mpr found⟩, ?_⟩)
      rw [mem_iff_countP]
      rw [found] at once ⊢
      cases isMarked : state.interrupt with
      | false => simp [flag, isMarked]
      | true =>
        -- Whoever has marked the task does not do so again.
        have bit := Bool.toNat_le state.done
        simp only [isDone, marked, isMarked, Bool.toNat_true] at once
        have none : s.todo.countP (Instruction.interrupts task) = 0 := by omega
        simp [flag, isMarked, none]
  · refine .inr (.inr ⟨detached, ?_⟩)
    rw [Own.told, unpublished]
    rfl

end Run

/-- A client submits two tasks for one thread, of which the first one panics, and interrupts the first. -/
def interruptingClient : System State Own Instruction :=
  withClients ⟨1, 1, 1, 0, "pool"⟩ [[.submit .dedicated "first" [[.reportInterrupt, .panic none]],
    .submit .dedicated "second" [[.reportInterrupt]], .cancel 0 true]]

/-- The client interrupts the first task in the midst of its script. -/
def firstInterrupted : List (World × Nat) := ([2, 2, 2, 2, 2, 2] ++ [1, 1, 1] ++ [2]).map (⟨0, false, []⟩, ·)

/-- The thread goes on to the second task. -/
def secondBegins : List (World × Nat) := [1, 1, 1, 1, 1, 1, 1, 1, 1].map (⟨0, false, []⟩, ·)

/-- The first task finds itself interrupted, and panics; the second one, on the same thread, does not. -/
theorem second_task_not_interrupted :
    (∃ s seen thread, machine.Run interruptingClient s seen ∧ s.threads[1]? = some thread ∧ body? thread.todo = some 0 ∧
      thread.own.told s.shared = true ∧ Interrupted 0 interruptingClient s seen) ∧
    ∃ s seen thread, machine.Run interruptingClient s seen ∧ s.threads[1]? = some thread ∧ body? thread.todo = some 1 ∧
      thread.own.told s.shared = false ∧ ¬ Interrupted 1 interruptingClient s seen := by
  constructor
  · have found : ((machine.follow firstInterrupted (interruptingClient, [])).bind fun past => past.1.threads[1]?.map fun thread =>
        (body? thread.todo, thread.own.told past.1.shared)) = some (some 0, true) := rfl
    obtain ⟨⟨s, seen⟩, followed, same⟩ := Option.bind_eq_some_iff.mp found
    obtain ⟨thread, here, same⟩ := Option.map_eq_some_iff.mp same
    simp only [Prod.mk.injEq] at same
    obtain ⟨inside, told⟩ := same
    have run := Machine.run_of_follow .start followed
    refine ⟨s, seen, thread, run, here, inside, told, ?_⟩
    rcases (interrupted_iff_cancelled run (List.mem_of_getElem? here) inside).2 with
      ⟨-, answer⟩ | ⟨-, answer⟩ | ⟨-, silent⟩
    · exact answer.mp told
    · exact (answer.mp told).1
    · rw [told] at silent
      cases silent
  · have found : ((machine.follow (firstInterrupted ++ secondBegins) (interruptingClient, [])).bind fun past =>
        past.1.threads[1]?.map fun thread =>
          (body? thread.todo, thread.own.told past.1.shared, (past.1.shared.cell? 1).isSome)) = some (some 1, false, true) := rfl
    obtain ⟨⟨s, seen⟩, followed, same⟩ := Option.bind_eq_some_iff.mp found
    obtain ⟨thread, here, same⟩ := Option.map_eq_some_iff.mp same
    simp only [Prod.mk.injEq] at same
    obtain ⟨inside, told, hasCell⟩ := same
    have run := Machine.run_of_follow .start followed
    obtain ⟨cell, isCell⟩ := Option.isSome_iff_exists.mp hasCell
    refine ⟨s, seen, thread, run, here, inside, told, fun interrupted => ?_⟩
    rcases (interrupted_iff_cancelled run (List.mem_of_getElem? here) inside).2 with
      ⟨-, answer⟩ | ⟨⟨state, repeats⟩, -⟩ | ⟨detached, -⟩
    · have yes := answer.mpr interrupted
      rw [told] at yes
      cases yes
    · rw [cell?_eq_some_iff] at isCell
      rw [periodic?_eq_some_iff, isCell] at repeats
      cases repeats
    · rw [cell?_eq_some_iff, detached] at isCell
      cases isCell

end PeerSubstrate.Executor.Pool
