import PeerSubstrate.Proofs.Executor.Bearers

/-!
# Tasks that are given up

Whoever has a task to give up is the only one who holds it, and does not run it (`GivenUp.not_run`). So a task that has been
refused or thrown out by the scheduled queue never begins again, whatever the other threads do meanwhile (`GivenUp.step`).
-/

namespace PeerSubstrate.Executor.Pool
open PeerSubstrate.Concurrency
open Instruction (custody? weighty)

namespace Instruction

/-- Whoever has this to do holds the task. -/
def bears (task : Nat) (i : Instruction) : Bool := (i.custody?.map (·.2 == task)).getD false

/-- The task that is given up by this. -/
def parts? : Instruction → Option Nat
  | .abandon work => some work.custody.2
  | .drop job => some job.task
  | _ => none

end Instruction

open Instruction (bears parts?)

/-- Somebody is about to give the task up, or nobody holds it any more. -/
def GivenUp (task : Nat) (s : System State Own Instruction) : Prop :=
  (∃ i ∈ s.todo, parts? i = some task) ∨ holders task s = 0 ∧ known s.shared.records[task]? = 1

section Holders

variable {s : System State Own Instruction} {task : Nat} {i j : Instruction} {entry : Entry}

theorem bears_of_custody {held : Custody × Nat} (holds : custody? i = some held) : i.bears held.2 = true := by
  rw [bears, holds]
  exact beq_self_eq_true held.2

private theorem bears_of_parts (parts : parts? i = some task) : i.bears task = true := by
  cases i with
  | abandon work =>
    cases parts
    exact @bears_of_custody (.abandon work) work.custody rfl
  | drop job =>
    cases parts
    exact @bears_of_custody (.drop job) (.waiting, job.task) rfl
  | _ => cases parts

private theorem weighty_of_parts (parts : parts? i = some task) : i.weighty = true := by
  cases i <;> first | rfl | cases parts

theorem holders_ge (task : Nat) (s : System State Own Instruction) :
    s.shared.scheduled.queue.countP (·.task.custody.2 == task) + s.todo.countP (bears task) ≤ holders task s := by
  have queue : (s.shared.scheduled.queue.map (·.task.custody)).countP (·.2 == task) =
      s.shared.scheduled.queue.countP (·.task.custody.2 == task) := List.countP_map
  have todo : (s.todo.filterMap custody?).countP (·.2 == task) = s.todo.countP (bears task) := List.countP_filterMap
  rw [holders, holdings, Stock.held, List.countP_append, List.countP_append, List.countP_append, todo]
  change _ ≤ _ + (s.shared.scheduled.queue.map (·.task.custody)).countP (·.2 == task) + _
  omega

theorem two_le_countP {α : Type} {l : List α} {p : α → Bool} {a b : α} (one : a ∈ l) (other : b ∈ l) (apart : a ≠ b)
    (isOne : p a = true) (isOther : p b = true) : 2 ≤ l.countP p := by
  have inside : [a, b].Subperm l :=
    List.subperm_of_subset (by simp [apart]) (List.forall_mem_cons.mpr ⟨one, List.forall_mem_singleton.mpr other⟩)
  have two : [a, b].countP p = 2 := by simp [isOne, isOther]
  exact two ▸ inside.countP_le p

theorem Borne.holders_le_one (borne : Borne s) (task : Nat) : holders task s ≤ 1 :=
  Nat.le_trans (borne.holders_le task) (Bool.toNat_le _)

/-- A task that is in the queue is in nobody's hands. -/
theorem Borne.not_queued (borne : Borne s) (member : i ∈ s.todo) (mine : i.bears task = true) :
    ∀ entry ∈ s.shared.scheduled.queue, entry.task.custody.2 ≠ task := by
  intro entry queued same
  have one : 0 < s.shared.scheduled.queue.countP (·.task.custody.2 == task) :=
    List.countP_pos_iff.mpr ⟨entry, queued, beq_iff_eq.mpr same⟩
  have other : 0 < s.todo.countP (bears task) := List.countP_pos_iff.mpr ⟨i, member, mine⟩
  have parts := holders_ge task s
  have single := borne.holders_le_one task
  omega

/-- A task that is given up is not in other hands. -/
theorem GivenUp.not_run (givenUp : GivenUp task s) (borne : Borne s) (member : i ∈ s.todo) (mine : i.bears task = true)
    (other : parts? i = none) : False := by
  have parts := holders_ge task s
  rcases givenUp with ⟨j, there, isParting⟩ | ⟨none, -⟩
  · have apart : i ≠ j := by
      rintro rfl
      cases other.symm.trans isParting
    have two := two_le_countP member there apart mine (bears_of_parts isParting)
    have single := borne.holders_le_one task
    omega
  · have one : 0 < s.todo.countP (bears task) := List.countP_pos_iff.mpr ⟨i, member, mine⟩
    omega

end Holders

section Step

variable {world : World} {before after : List (Thread Own Instruction)} {own : Own} {instruction i : Instruction}
  {rest : List Instruction} {effect : Effect State Own Instruction Event} {shared : State} {task : Nat}

/-- What jobs depend on stays to be done until somebody does it. -/
theorem mem_todo_of_perform (borne : Borne ⟨shared, before ++ ⟨own, instruction :: rest⟩ :: after⟩)
    (performed : perform world before.length shared own instruction rest = some effect) (heavy : i.weighty = true)
    (member : i ∈ System.todo ⟨shared, before ++ ⟨own, instruction :: rest⟩ :: after⟩) :
    i = instruction ∨ i ∈ System.todo ⟨effect.shared, before ++ effect.thread :: (after ++ effect.started)⟩ := by
  obtain ⟨thread, isThread, here⟩ := List.mem_flatMap.mp member
  rcases mem_threads_iff.mp (List.append_nil after ▸ isThread) with rfl | other | started
  · rcases List.mem_cons.mp here with same | later
    · exact .inl same
    · obtain ⟨-, new, dropped, behind, isTodo, isRest, light⟩ :=
        (goesOn_of_perform performed).spares (borne.orderly _ mem_middle) (borne.unladen _ mem_middle)
      refine .inr (List.mem_flatMap.mpr ⟨effect.thread, mem_threads_iff.mpr (.inl rfl), ?_⟩)
      rw [isRest] at later
      rw [isTodo]
      rcases List.mem_append.mp later with gone | stays
      · exact absurd heavy (List.filter_eq_nil_iff.mp light i gone)
      · exact List.mem_append_right _ stays
  · exact .inr (List.mem_flatMap.mpr ⟨thread, mem_threads_iff.mpr (.inr (.inl other)), here⟩)
  · cases started

/-- While the queues stay as they are, a task is held by as many more as one thread comes to hold it. -/
theorem holders_of_thread {shared' : State} (queues : shared.KeepsQueues shared') (one now : Thread Own Instruction) :
    holders task ⟨shared', before ++ now :: after⟩ + one.todo.countP (bears task) =
      holders task ⟨shared, before ++ one :: after⟩ + now.todo.countP (bears task) := by
  obtain ⟨immediate, funnel, scheduled⟩ := queues
  have todo : ∀ one : Thread Own Instruction, ∀ shared : State,
      ((System.todo ⟨shared, before ++ one :: after⟩).filterMap custody?).countP (·.2 == task) =
        (System.todo ⟨shared, before ++ one :: after⟩).countP (bears task) := fun _ _ => List.countP_filterMap
  simp only [holders, holdings, Stock.held, State.stock, immediate, funnel, scheduled, List.countP_append, todo]
  rw [countP_todo, countP_todo]
  omega

/-- Whoever lets a task go was the last one to hold it. -/
theorem GivenUp.released {kind : Custody} (borne : Borne ⟨shared, before ++ ⟨own, instruction :: rest⟩ :: after⟩)
    (queues : shared.KeepsQueues effect.shared) (tasks : effect.shared.records.length = shared.records.length)
    (none : effect.started = []) (isTodo : effect.thread.todo = rest) (holds : custody? instruction = some (kind, task)) :
    GivenUp task ⟨effect.shared, before ++ effect.thread :: (after ++ effect.started)⟩ := by
  have mine : instruction.bears task = true := bears_of_custody holds
  have fewer : holders task ⟨effect.shared, before ++ effect.thread :: (after ++ effect.started)⟩ + 1 =
      holders task ⟨shared, before ++ ⟨own, instruction :: rest⟩ :: after⟩ := by
    have moved := @holders_of_thread before after shared task effect.shared queues ⟨own, instruction :: rest⟩ effect.thread
    rw [none, List.append_nil]
    rw [isTodo, List.countP_cons, mine, if_pos rfl] at moved
    omega
  have single := borne.holders_le_one task
  have suits := borne.suits task kind (List.count_pos_iff.mpr (mem_holdings (by simp [System.todo]) holds))
  refine .inr ⟨by omega, ?_⟩
  exact (known_of_length tasks task).trans suits.known

theorem GivenUp.step (givenUp : GivenUp task ⟨shared, before ++ ⟨own, instruction :: rest⟩ :: after⟩)
    (borne : Borne ⟨shared, before ++ ⟨own, instruction :: rest⟩ :: after⟩)
    (sound : Sound ⟨shared, before ++ ⟨own, instruction :: rest⟩ :: after⟩)
    (performed : perform world before.length shared own instruction rest = some effect) :
    GivenUp task ⟨effect.shared, before ++ effect.thread :: (after ++ effect.started)⟩ := by
  rcases givenUp with ⟨i, member, parts⟩ | ⟨none, isKnown⟩
  · rcases mem_todo_of_perform borne performed (weighty_of_parts parts) member with rfl | stays
    · cases i with
      | abandon work =>
        cases work with
        | once job =>
          cases performed
          exact .inl ⟨.drop job, by simp [System.todo], parts⟩
        | periodic repeated =>
          cases performed
          refine .released borne (keepsQueues_modifyPeriodic _ _ _) ?_ rfl rfl (congrArg (fun task => some (_, task)) ?_)
          · simp [modifyPeriodic_records]
          · exact Option.some.inj parts
      | drop job =>
        cases parts
        simp only [perform] at performed
        split at performed <;> cases performed
        · exact .released borne ⟨rfl, rfl, rfl⟩ List.length_set rfl rfl rfl
        · exact .released borne ⟨rfl, rfl, rfl⟩ rfl rfl rfl rfl
      | _ => cases parts
    · exact .inl ⟨i, stays, parts⟩
  · -- Only a new task comes to be held that nobody has held before.
    have kept := (borne.kept (borne.proceeds sound performed) task).2.1
    rw [bearers_eq, bearers_eq] at kept
    change holders _ _ + _ ≤ holders _ _ + _ at kept
    have bit : known effect.shared.records[task]? ≤ 1 := Bool.toNat_le _
    have past : known shared.records[task]? = 1 := isKnown
    refine .inr ⟨by omega, ?_⟩
    change known effect.shared.records[task]? = 1
    omega

end Step

end PeerSubstrate.Executor.Pool
