import PeerSubstrate.Proofs.Reactor.Election

/-!
# Wake-ups

Whoever queues something looks afterwards whether the worker is blocked, and the worker says so before it looks whether
anything is queued. So a worker that waits although something is queued has been woken, or somebody has not finished
looking (`wakeup_kept`). Between the two looks of the worker this is an invariant for the registrations alone (`Wakeful`).
-/

namespace PeerSubstrate.Reactor
open PeerSubstrate.Concurrency

/-- The worker has said that it is about to block, and has not polled since. -/
def Post.announced : Post → Bool
  | .seeingRegistrations | .seeingChanges | .polling _ => true
  | _ => false

/-- Something is queued that the worker has not seen when it looked. -/
def Unseen (d : Desk) : Option Post → Prop
  | some .seeingChanges => d.registrations ≠ []
  | some (.polling true) => d.registrations ≠ [] ∨ d.changes ≠ []
  | _ => False

/-- The worker is woken, or will be: by a thread that owes this, or by somebody else. -/
def Alerted (d : Desk) (owed : List Instruction) (elsewhere : Prop) : Prop :=
  d.woken = true ∨ (∃ i ∈ owed, i.alerts = true) ∨ elsewhere

/-- What a worker may rely on at this point. -/
def Ready (d : Desk) (alerted : Prop) (p : Option Post) : Prop :=
  (p.any Post.announced = true → d.blocked = true) ∧ (Unseen d p → alerted)

private theorem Ready.imp {d : Desk} {alerted alerted' : Prop} {p : Option Post} (ready : Ready d alerted p)
    (keeps : alerted → alerted') : Ready d alerted' p :=
  ⟨ready.1, keeps ∘ ready.2⟩

private theorem Ready.of_outside {d : Desk} {alerted : Prop} {p : Option Post} (outside : p.any Post.inLoop = false) :
    Ready d alerted p := by
  cases p with
  | none => exact ⟨fun announced => Bool.noConfusion announced, False.elim⟩
  | some p =>
    cases p with
    | outside => exact ⟨fun announced => Bool.noConfusion announced, False.elim⟩
    | _ => exact Bool.noConfusion outside

/-- It is enough that the worker still has its alert when it is blocked. -/
theorem Ready.keep {d d' : Desk} {alerted alerted' : Prop} {p : Option Post} (ready : Ready d alerted p)
    (blocked : d'.blocked = d.blocked)
    (keeps : d.blocked = true → p.any Post.announced = true → (Unseen d p → alerted) → Unseen d' p → alerted') :
    Ready d' alerted' p := by
  refine ⟨fun announced => blocked ▸ ready.1 announced, fun unseen => ?_⟩
  have announced : p.any Post.announced = true := by
    unfold Unseen at unseen
    split at unseen
    · rfl
    · rfl
    · exact unseen.elim
  exact keeps (ready.1 announced) announced ready.2 unseen

section Turn

variable {safe : Prop} {worker : Nat} {d d' : Desk} {p p' q q' : Option Post} {gone new : List Instruction}
  {started : List Nat} {elsewhere : Prop}

/-- What a worker relies on, it may rely on after a turn of its own or of a thread that is not in the loop with it. -/
theorem Turn.ready (turn : Turn safe worker d p gone d' p' new started)
    (who : q = p ∧ q' = p' ∨ q' = q ∧ (p.any Post.inLoop = true → q.any Post.inLoop = false))
    (taken : q.any Post.announced = true → d.owner ≠ noWorker) (ready : Ready d (Alerted d gone elsewhere) q) :
    Ready d' (Alerted d' new elsewhere) q' := by
  have same : p' = p → q' = q := by
    rintro rfl
    rcases who with ⟨rfl, rfl⟩ | ⟨rfl, -⟩ <;> rfl
  have stepped : p.any Post.inLoop = true → q = p ∧ q' = p' ∨ Ready d' (Alerted d' new elsewhere) q' := by
    intro inside
    rcases who with own | ⟨rfl, apart⟩
    · exact .inl own
    · exact .inr (.of_outside (apart inside))
  cases turn with
  | apart | spawn =>
    rw [same rfl]
    simpa [Alerted, Instruction.alerts] using ready
  | register | ensure | defer | request =>
    rw [same rfl]
    exact ready.keep rfl fun _ _ _ _ => .inr (.inl ⟨_, List.mem_singleton_self _, rfl⟩)
  | elect free =>
    rw [same rfl]
    exact ready.keep rfl fun _ announced _ _ => absurd free (taken announced)
  | glance =>
    rw [same rfl]
    refine ready.keep rfl fun blocked _ _ _ => .inr (.inl ⟨.wake, ?_, rfl⟩)
    rw [if_pos blocked]
    exact List.mem_singleton_self _
  | wake =>
    rw [same rfl]
    exact ready.keep rfl fun _ _ _ _ => .inl rfl
  | enter =>
    rcases who with ⟨rfl, rfl⟩ | ⟨rfl, -⟩
    · exact ⟨fun announced => Bool.noConfusion announced, False.elim⟩
    · exact ready.keep rfl fun _ _ alerted unseen => alerted unseen
  | announce =>
    rcases stepped rfl with ⟨rfl, rfl⟩ | apart
    · exact ⟨fun _ => rfl, False.elim⟩
    · exact apart
  | seeRegistrations =>
    rcases stepped rfl with ⟨rfl, rfl⟩ | apart
    · have blocked := ready.1 rfl
      split
      · next none => exact ⟨fun _ => blocked, fun some => absurd (List.isEmpty_iff.mp none) some⟩
      · exact ⟨fun _ => blocked, False.elim⟩
    · exact apart
  | seeChanges =>
    rcases stepped rfl with ⟨rfl, rfl⟩ | apart
    · refine ⟨fun _ => ready.1 rfl, fun unseen => ?_⟩
      cases isQueue : d.changes with
      | nil =>
        rw [isQueue] at unseen
        exact ready.2 (unseen.resolve_right (absurd isQueue))
      | cons change changes =>
        rw [isQueue] at unseen
        exact unseen.elim
    · exact apart
  | inspect =>
    rcases stepped rfl with ⟨rfl, rfl⟩ | apart
    · split <;> exact ⟨fun announced => Bool.noConfusion announced, False.elim⟩
    · exact apart
  | _ =>
    rcases stepped rfl with ⟨rfl, rfl⟩ | apart
    · exact ⟨fun announced => Bool.noConfusion announced, False.elim⟩
    · exact apart

end Turn

/-- Somebody owes an alert. -/
def AlertDue (threads : List (Thread Own Instruction)) : Prop :=
  ∃ thread ∈ threads, ∃ i ∈ errands thread.todo, i.alerts = true

/-- Every worker may rely on being told what it has not seen. -/
structure Wakeful (s : System State Own Instruction) : Prop where
  elected : Elected False s
  ready : ∀ thread ∈ s.threads, Ready s.shared.desk (s.shared.woken = true ∨ AlertDue s.threads) (post? thread.todo)

private theorem inOffice_of_announced {p : Option Post} (announced : p.any Post.announced = true) :
    p.any Post.inOffice = true := by
  cases p with
  | none => exact Bool.noConfusion announced
  | some p => cases p <;> first | rfl | exact Bool.noConfusion announced

/-- As long as there is a worker in office, the slot is taken. -/
theorem Elected.taken {safe : Prop} {s : System State Own Instruction} (elected : Elected safe s)
    {thread : Thread Own Instruction} (member : thread ∈ s.threads)
    (inOffice : (post? thread.todo).any Post.inOffice = true) : s.shared.owner ≠ noWorker := by
  rcases elected.manned with ⟨none, -⟩ | ⟨-, taken⟩
  · have mine : office thread = [] := List.flatMap_eq_nil_iff.mp none thread member
    simp [office, officers, inOffice] at mine
  · exact taken

section Step

variable {safe : Prop} {world : World} {me : Nat} {shared : State} {own : Own} {instruction : Instruction}
  {rest : List Instruction} {before after : List (Thread Own Instruction)} {effect : Effect State Own Instruction Event}

private theorem alerted_iff {d : Desk} {one : Thread Own Instruction} {numbers : List Nat} {owed behind : List Instruction}
    (owes : errands one.todo = owed ++ behind) :
    d.woken = true ∨ AlertDue (before ++ one :: (after ++ numbers.map workerThread)) ↔
      Alerted d owed ((∃ i ∈ behind, i.alerts = true) ∨ AlertDue (before ++ after)) := by
  constructor
  · rintro (woken | ⟨thread, member, i, due, alerts⟩)
    · exact .inl woken
    · rcases mem_threads.mp member with rfl | old | ⟨number, -, rfl⟩
      · rw [owes] at due
        rcases List.mem_append.mp due with now | later
        · exact .inr (.inl ⟨i, now, alerts⟩)
        · exact .inr (.inr (.inl ⟨i, later, alerts⟩))
      · exact .inr (.inr (.inr ⟨thread, old, i, due, alerts⟩))
      · cases due
  · rintro (woken | ⟨i, now, alerts⟩ | ⟨i, later, alerts⟩ | ⟨thread, old, i, due, alerts⟩)
    · exact .inl woken
    · exact .inr ⟨one, mem_threads.mpr (.inl rfl), i, owes ▸ List.mem_append_left _ now, alerts⟩
    · exact .inr ⟨one, mem_threads.mpr (.inl rfl), i, owes ▸ List.mem_append_right _ later, alerts⟩
    · exact .inr ⟨thread, mem_threads.mpr (.inr (.inl old)), i, due, alerts⟩

theorem Wakeful.step (wakeful : Wakeful ⟨shared, before ++ ⟨own, instruction :: rest⟩ :: after⟩)
    (performed : perform world me shared own instruction rest = some effect) :
    Wakeful ⟨effect.shared, before ++ effect.thread :: (after ++ effect.started)⟩ := by
  have here : ⟨own, instruction :: rest⟩ ∈ before ++ ⟨own, instruction :: rest⟩ :: after := by simp
  have elected := wakeful.elected
  obtain ⟨-, -, -, new, started, owes, starts, turn⟩ := (elected.orderly _ here).continues (False.elim : False → _) performed
  have owed : errands (instruction :: rest) = errands [instruction] ++ errands rest := errands_append [instruction] rest
  have beforehand := @alerted_iff before after shared.desk ⟨own, instruction :: rest⟩ [] _ _ owed
  rw [List.map_nil, List.append_nil] at beforehand
  have ready : ∀ {q q'}, (∃ thread ∈ before ++ ⟨own, instruction :: rest⟩ :: after, post? thread.todo = q) →
      (q = post? (instruction :: rest) ∧ q' = post? effect.thread.todo ∨
        q' = q ∧ ((post? (instruction :: rest)).any Post.inLoop = true → q.any Post.inLoop = false)) →
      Ready effect.shared.desk (effect.shared.desk.woken = true ∨
        AlertDue (before ++ effect.thread :: (after ++ started.map workerThread))) q' := by
    rintro q q' ⟨thread, member, rfl⟩ who
    have relied := (wakeful.ready thread member).imp beforehand.mp
    have taken := fun announced => elected.taken member (inOffice_of_announced announced)
    exact (turn.ready who taken relied).imp (alerted_iff owes).mpr
  refine ⟨elected.step False.elim performed, fun thread member => ?_⟩
  rw [starts] at member ⊢
  rcases mem_threads.mp member with rfl | old | ⟨number, -, rfl⟩
  · exact ready ⟨_, here, rfl⟩ (.inl ⟨rfl, rfl⟩)
  · exact ready ⟨thread, mem_of_other old, rfl⟩ (.inr ⟨rfl, fun inside => elected.outside inside old⟩)
  · exact .of_outside rfl

end Step

section Run

variable {idleIterations : Nat} {calls : List (List Call)} {s : System State Own Instruction} {seen : List Event}

theorem Wakeful.start (idleIterations : Nat) (calls : List (List Call)) : Wakeful (callers idleIterations calls) := by
  refine ⟨.start _ _ _, fun thread member => ?_⟩
  have post : post? thread.todo = none :=
    List.findSome?_eq_none_iff.mpr fun i here => ((callers_apart member).2 i here).1
  rw [post]
  exact .of_outside rfl

theorem Wakeful.run (run : machine.Run (callers idleIterations calls) s seen) : Wakeful s :=
  run.keeps (.start _ _) fun wakeful performed => wakeful.step performed

/-- A worker that waits although something is queued has been woken, or a thread that has queued something has yet to look
whether the worker is blocked, or to wake it. -/
theorem wakeup_kept (run : machine.Run (callers idleIterations calls) s seen) {worker : Thread Own Instruction}
    (member : worker ∈ s.threads) (waits : worker.todo.head? = some (.poll true))
    (queued : s.shared.registrations ≠ [] ∨ s.shared.changes ≠ []) :
    s.shared.woken = true ∨ ∃ thread ∈ s.threads, ∃ i ∈ thread.todo, i.alerts = true := by
  have post : post? worker.todo = some (.polling true) := by
    obtain ⟨rest, isTodo⟩ := List.head?_eq_some_iff.mp waits
    rw [isTodo]
    rfl
  have ready := (Wakeful.run run).ready worker member
  rw [post] at ready
  rcases ready.2 queued with woken | ⟨thread, there, i, due, alerts⟩
  · exact .inl woken
  · exact .inr ⟨thread, there, i, List.mem_of_mem_filter due, alerts⟩

end Run

/-- The worker serves the first connection and is about to wait when the second one is registered. -/
def registeredWhileWaiting : List (World × Nat) := (List.replicate 5 0 ++ List.replicate 19 2 ++ [1]).map ({}, ·)

/-- The thread that registers it has yet to look. -/
theorem wakeup_owed : ∃ s seen, machine.Run twoCallers s seen ∧ s.shared.registrations = [8] ∧
    (∃ worker ∈ s.threads, worker.todo.head? = some (.poll true)) ∧
    (s.shared.woken = true ∨ ∃ thread ∈ s.threads, ∃ i ∈ thread.todo, i.alerts = true) := by
  have ends : (machine.follow registeredWhileWaiting (twoCallers, [])).map
      (fun past => (past.1.threads.map Thread.todo, past.1.shared.registrations)) =
      some ([[], [.ensure], [.poll true]], [8]) := by decide
  obtain ⟨⟨s, seen⟩, followed, same⟩ := Option.map_eq_some_iff.mp ends
  obtain ⟨todos, registrations⟩ : s.threads.map Thread.todo = [[], [.ensure], [.poll true]] ∧ s.shared.registrations = [8] :=
    Prod.mk.inj same
  have run := Machine.run_of_follow .start followed
  have waiting : [.poll true] ∈ s.threads.map Thread.todo := todos ▸ by simp
  obtain ⟨worker, member, isTodo⟩ := List.mem_map.mp waiting
  have waits : worker.todo.head? = some (.poll true) := by rw [isTodo]; rfl
  have queued : s.shared.registrations ≠ [] := by
    rw [registrations]
    exact List.cons_ne_nil _ _
  exact ⟨s, seen, run, registrations, ⟨worker, member, waits⟩, wakeup_kept run member waits (.inl queued)⟩

end PeerSubstrate.Reactor
