import PeerSubstrate.Proofs.Reactor.Coalescing

/-!
# Batches of changes

A worker takes changes from the queue until it finds that empty, and then goes through what it has brought together. Meanwhile
other threads queue changes, and what the connections are told may lead to more of them. At any point of such a pass, what the
worker has still to do (`remaining`) leads from where it is to what the batch comes to (`Passing`), so at its end the
connections, the poller and all that has been seen are those of the batch (`batch_applied`).
-/

namespace PeerSubstrate.Reactor
open PeerSubstrate.Concurrency

/-- What an observer sees who is told when a change is queued. -/
inductive Notice where
  | asked (change : Change)
  | seen (event : Event)
  deriving DecidableEq

/-- The change that is queued. -/
def Instruction.asks? : Instruction → Option Change
  | .request change => some change
  | _ => none

/-- What the observer notes when an instruction has been performed. -/
def notices (instruction : Instruction) (events : List Event) : List Notice :=
  instruction.asks?.toList.map .asked ++ events.map .seen

def Notice.change? : Notice → Option Change
  | .asked change => some change
  | .seen _ => none

def Notice.event? : Notice → Option Event
  | .asked _ => none
  | .seen event => some event

/-- All changes that have been queued. -/
def askedOf (noticed : List Notice) : List Change := noticed.filterMap Notice.change?

/-- All events. -/
def seenOf (noticed : List Notice) : List Event := noticed.filterMap Notice.event?

section Notices

variable {noticed : List Notice} {instruction : Instruction} {events : List Event}

private theorem askedOf_append :
    askedOf (noticed ++ notices instruction events) = askedOf noticed ++ instruction.asks?.toList := by
  have mine : askedOf (notices instruction events) = instruction.asks?.toList := by
    simp [askedOf, notices, Function.comp_def, Notice.change?]
  rw [askedOf, List.filterMap_append]
  exact congrArg _ mine

private theorem seenOf_append : seenOf (noticed ++ notices instruction events) = seenOf noticed ++ events := by
  have mine : seenOf (notices instruction events) = events := by
    simp [seenOf, notices, Function.comp_def, Notice.event?]
  rw [seenOf, List.filterMap_append]
  exact congrArg _ mine

end Notices

/-- What is going to be seen of connections while this is done, and what is going to be left. -/
def remaining (descriptors : Nat → Option Nat) : List Instruction → Live → Poller → Outcome
  | [], live, poller => ⟨[], live, poller⟩
  | .apply token fate :: rest, live, poller =>
    let (result, live', poller') := applyFate (descriptors token) token fate live poller
    let outcome := remaining descriptors rest live' poller'
    { outcome with events := .applied token result :: (told live token result ++ outcome.events) }
  | .call selectable token callback :: rest, live, poller =>
    let outcome := remaining descriptors rest live poller
    { outcome with events := .called selectable token callback :: outcome.events }
  | _ :: rest, live, poller => remaining descriptors rest live poller

/-- With these events before all others. -/
def Outcome.after (events : List Event) (outcome : Outcome) : Outcome := { outcome with events := events ++ outcome.events }

section Remaining

variable {descriptors : Nat → Option Nat} {world : World} {rest more todo : List Instruction} {live : Live} {poller : Poller}
  {token : Nat} {result : Applied} {b b' : Bench} {instruction : Instruction} {events : List Event}

private theorem Outcome.after_after (earlier later : List Event) (outcome : Outcome) :
    (outcome.after later).after earlier = outcome.after (earlier ++ later) := by
  simp only [after, List.append_assoc]

private theorem remaining_cons_of_idle (idle : instruction.idle = true) :
    remaining descriptors (instruction :: rest) live poller = remaining descriptors rest live poller := by
  cases instruction <;> first | rfl | cases idle

private theorem remaining_append_of_idle (idle : ∀ i ∈ more, i.idle = true) :
    remaining descriptors (more ++ rest) live poller = remaining descriptors rest live poller := by
  induction more with
  | nil => rfl
  | cons i more ih =>
    obtain ⟨first, others⟩ := List.forall_mem_cons.mp idle
    exact (remaining_cons_of_idle first).trans (ih others)

/-- A connection that has undergone its fate is still to be told. -/
theorem remaining_news (known : Live) :
    remaining descriptors (news known token result ++ rest) live poller =
      (remaining descriptors rest live poller).after (told known token result) := by
  unfold news told
  cases result with
  | changed interest => cases known.find? token <;> rfl
  | _ => rfl

private theorem applications_eq (order : List Nat) (fates : Fates) :
    applications order fates = (fates.inOrder order).map fun entry => .apply entry.1 entry.2 := by
  rw [applications, Fates.inOrder, List.map_filterMap]
  refine List.filterMap_congr fun token _ => ?_
  rw [Option.map_map]
  rfl

private theorem remaining_applications (fates : Fates) :
    remaining descriptors ((fates.map fun entry => .apply entry.1 entry.2) ++ [.publish]) live poller =
      undergo descriptors fates live poller := by
  induction fates generalizing live poller with
  | nil => rfl
  | cons entry fates ih =>
    obtain ⟨token, fate⟩ := entry
    simp only [List.map_cons, List.cons_append, remaining, undergo, ih]

/-- What a worker does while it applies changes is what it had to do. -/
theorem Stint.remaining (stint : Stint world b instruction rest events b' todo) (inPhase : InPhase (instruction :: rest))
    (ends : .publish ∈ rest) (same : steady descriptors world instruction = true) :
    .publish ∈ todo ∧ Reactor.remaining descriptors (instruction :: rest) b.live b.poller =
      (Reactor.remaining descriptors todo b'.live b'.poller).after events := by
  have applying : ∀ {p}, instruction.phase? = some p → p = .applying := fun isPhase =>
    inPhase.alike (List.mem_cons_self ..) (List.mem_cons_of_mem _ ends) isPhase rfl
  cases stint with
  | aside more idle outward =>
    refine ⟨List.mem_append_right _ ends, ?_⟩
    rw [remaining_cons_of_idle idle, remaining_append_of_idle fun i member => Instruction.idle_of_outward (outward i member)]
    rfl
  | call free =>
    refine ⟨List.mem_append_right _ ends, ?_⟩
    rw [remaining_append_of_idle free]
    rfl
  | apply applied =>
    refine ⟨List.mem_append_right _ ends, ?_⟩
    rw [of_decide_eq_true same] at applied
    rw [remaining_news, Outcome.after_after, Reactor.remaining, applied]
    rfl
  | dispatch | overlook | insert => cases applying rfl
  | _ => simp at ends

end Remaining

/-- A worker is on its way through a batch of changes: it is still bringing them together, or what it has still to do leads to
what the batch comes to. -/
inductive Passing (descriptors : Nat → Option Nat) (live : Live) (poller : Poller) (changes : List Change) (s : State)
    (own : Own) (todo : List Instruction) (noticed : List Notice) : Prop
  | gathering (batch : List Change) : todo = [.drain] ∨ todo = [.applyAll] → own.fates = .ofChanges batch →
      batch ++ s.changes = changes ++ askedOf noticed → own.live = live → s.poller = poller → seenOf noticed = [] →
      Passing descriptors live poller changes s own todo noticed
  | applying (batch : List Change) (order : List Nat) : .publish ∈ todo →
      batch ++ s.changes = changes ++ askedOf noticed →
      (remaining descriptors todo own.live s.poller).after (seenOf noticed) =
        undergo descriptors ((Fates.ofChanges batch).inOrder order) live poller →
      Passing descriptors live poller changes s own todo noticed

section Step

variable {descriptors : Nat → Option Nat} {live : Live} {poller : Poller} {changes : List Change} {world : World} {me : Nat}
  {s s' : State} {own : Own} {instruction : Instruction} {rest todo : List Instruction} {noticed : List Notice}
  {effect : Effect State Own Instruction Event}

/-- Only the worker takes changes from the queue. -/
theorem changes_of_perform (performed : perform world me s own instruction rest = some effect) (other : instruction ≠ .drain) :
    effect.shared.changes = s.changes ++ instruction.asks?.toList := by
  have same : effect.shared.changes = s.changes → instruction.asks? = none →
      effect.shared.changes = s.changes ++ instruction.asks?.toList := by
    intro same none
    rw [same, none, Option.toList_none, List.append_nil]
  have raised : raise s own rest me = some effect → effect.shared.changes = s.changes := by
    intro performed
    unfold raise at performed
    split at performed <;> cases performed <;> rfl
  cases instruction with
  | request change =>
    cases performed
    rfl
  | drain => exact absurd rfl other
  | panic => exact same (raised performed) rfl
  | enroll selectable token =>
    refine same ?_ rfl
    simp only [perform, performEnroll] at performed
    split at performed
    · exact raised performed
    · cases performed
      rfl
    · split at performed <;> cases performed <;> rfl
  | decide =>
    refine same ?_ rfl
    simp only [perform, performDecide] at performed
    split at performed <;> cases performed <;> rfl
  | claim | lock | poll | dispatch | attach | regain =>
    refine same ?_ rfl
    simp only [perform] at performed
    split at performed <;> cases performed <;> rfl
  | _ =>
    cases performed
    exact same rfl rfl

/-- Whatever is queued meanwhile has its turn after the batch. -/
theorem queue_of_perform {batch : List Change} (performed : perform world me s own instruction rest = some effect)
    (other : instruction ≠ .drain) (queue : batch ++ s.changes = changes ++ askedOf noticed) :
    batch ++ effect.shared.changes = changes ++ askedOf (noticed ++ notices instruction effect.events) := by
  rw [changes_of_perform performed other, askedOf_append, ← List.append_assoc, queue, List.append_assoc]

/-- The worker goes on. -/
theorem Passing.work (passing : Passing descriptors live poller changes s own (instruction :: rest) noticed)
    (orderly : Orderly (instruction :: rest)) (begun : instruction ≠ .lock) (inPhase : InPhase (instruction :: rest))
    (distinct : (own.fates.map Prod.fst).Nodup) (same : steady descriptors world instruction = true)
    (unpublished : instruction ≠ .publish) (performed : perform world me s own instruction rest = some effect) :
    Passing descriptors live poller changes effect.shared effect.thread.own effect.thread.todo
      (noticed ++ notices instruction effect.events) := by
  cases passing with
  | gathering batch next fates queue isLive isPoller unseen =>
    rcases next with next | next
    · cases next
      simp only [perform] at performed
      split at performed
      · next empty =>
        cases performed
        refine .gathering batch (.inr rfl) fates ?_ isLive isPoller (by rw [seenOf_append, unseen]; rfl)
        rw [queue, askedOf_append]
        exact congrArg _ (List.append_nil _).symm
      · next change later isQueue =>
        cases performed
        refine .gathering (batch ++ [change]) (.inl rfl) ?_ ?_ isLive isPoller (by rw [seenOf_append, unseen]; rfl)
        · rw [Fates.ofChanges_concat, ← fates]
        · rw [isQueue] at queue
          rw [List.append_assoc, List.singleton_append, queue, askedOf_append]
          exact congrArg _ (List.append_nil _).symm
    · cases next
      have queued := queue_of_perform performed (by simp) queue
      cases performed
      refine .applying batch world.order (by simp) queued ?_
      have isTodo := applications_eq world.order own.fates
      unfold applications at isTodo
      dsimp only
      rw [seenOf_append, unseen, List.append_nil, List.append_nil, isTodo, remaining_applications, fates, isLive, isPoller]
      rfl
  | applying batch order ends queue leads =>
    have later : .publish ∈ rest := (List.mem_cons.mp ends).resolve_left (Ne.symm unpublished)
    obtain ⟨still, remains⟩ := (orderly.stint begun distinct performed).remaining inPhase later same
    refine .applying batch order still (queue_of_perform performed ?_ queue) ?_
    · rintro rfl
      cases orderly.1 rfl
      cases later
    · rw [seenOf_append, ← Outcome.after_after, ← leads]
      exact congrArg _ remains.symm

/-- Another thread makes a step that has nothing to do with connections. -/
theorem Passing.beside {other : Own} {begun : List Instruction}
    (passing : Passing descriptors live poller changes s own todo noticed) (apart : instruction ≠ .drain)
    (performed : perform world me s other instruction begun = some effect) (samePoller : effect.shared.poller = s.poller)
    (silent : effect.events = []) :
    Passing descriptors live poller changes effect.shared own todo (noticed ++ notices instruction effect.events) := by
  have seen : seenOf (noticed ++ notices instruction effect.events) = seenOf noticed := by
    rw [seenOf_append, silent, List.append_nil]
  cases passing with
  | gathering batch next fates queue isLive isPoller unseen =>
    exact .gathering batch next fates (queue_of_perform performed apart queue) isLive (samePoller.trans isPoller)
      (seen.trans unseen)
  | applying batch order ends queue leads =>
    refine .applying batch order ends (queue_of_perform performed apart queue) ?_
    rw [samePoller, seen, leads]

end Step

/-! ## A whole pass -/

/-- The worker has not published the number of its connections, which it does when all changes have been applied. -/
def unpublished (_ : World) (instruction : Instruction) : Bool := instruction != .publish

section System

variable {descriptors : Nat → Option Nat} {live : Live} {poller : Poller} {changes : List Change} {world : World} {i : Nat}
  {shared : State} {own mine : Own} {instruction : Instruction} {rest todo : List Instruction} {noticed : List Notice}
  {before after : List (Thread Own Instruction)} {effect : Effect State Own Instruction Event}

private theorem Passing.inside {s : State} (passing : Passing descriptors live poller changes s own todo noticed)
    (stationed : Stationed ⟨own, todo⟩) : inLoop ⟨own, todo⟩ = true := by
  cases passing with
  | gathering batch next => rcases next with rfl | rfl <;> rfl
  | applying batch order ends =>
    cases isPost : post? todo with
    | none => cases stationed.away isPost _ ends
    | some post =>
      cases post with
      | outside =>
        have isTodo : todo = [.lock, .announce] := (stationed.fresh isPost).1
        simp [isTodo] at ends
      | _ => simp only [inLoop, isPost]; rfl

/-- Any thread makes a step. -/
theorem Passing.step {safe : Prop} (tended : Tended safe ⟨shared, before ++ ⟨own, instruction :: rest⟩ :: after⟩)
    (found : (before ++ ⟨own, instruction :: rest⟩ :: after)[i]? = some ⟨mine, todo⟩)
    (passing : Passing descriptors live poller changes shared mine todo noticed)
    (same : steady descriptors world instruction = true) (within : unpublished world instruction = true)
    (performed : perform world before.length shared own instruction rest = some effect) :
    ∃ mine' todo', (before ++ effect.thread :: (after ++ effect.started))[i]? = some ⟨mine', todo'⟩ ∧
      Passing descriptors live poller changes effect.shared mine' todo' (noticed ++ notices instruction effect.events) := by
  have here : ⟨own, instruction :: rest⟩ ∈ before ++ ⟨own, instruction :: rest⟩ :: after := by simp
  have stationed := tended.stationed _ here
  have orderly := tended.elected.orderly _ here
  have inside := passing.inside (tended.stationed _ (List.mem_of_getElem? found))
  by_cases isWorker : i = before.length
  case pos =>
    subst isWorker
    cases (getElem?_middle _).symm.trans found
    have begun : instruction ≠ .lock := by
      rintro rfl
      cases inside
    refine ⟨_, _, getElem?_middle _, ?_⟩
    exact passing.work orderly begun (stationed.inPhase inside) stationed.distinct same (bne_iff_ne.mp within) performed
  case neg =>
    obtain ⟨member, still⟩ := getElem?_of_ne isWorker found effect.thread effect.started
    have outside : inLoop ⟨own, instruction :: rest⟩ = false := by
      refine Bool.eq_false_iff.mpr fun alsoInside => ?_
      cases inside.symm.trans (tended.elected.outside alsoInside member)
    refine ⟨mine, todo, still, ?_⟩
    rcases stationed.outside outside with ⟨rfl, rfl, -⟩ | outward
    · have held : effect.shared.poller = shared.poller ∧ effect.events = [] := by
        simp only [perform] at performed
        split at performed
        · cases performed
          exact ⟨rfl, rfl⟩
        · cases performed
      exact passing.beside (by simp) performed held.1 held.2
    · have mineOutward := outward _ (List.mem_cons_self ..)
      have begun : instruction ≠ .lock := by
        rintro rfl
        cases mineOutward
      obtain ⟨silent, unmoved, -⟩ := (orderly.stint begun stationed.distinct performed).of_outward mineOutward
      refine passing.beside ?_ performed (congrArg Bench.poller unmoved) silent
      rintro rfl
      cases mineOutward

end System

section Run

variable {idleIterations : Nat} {calls : List (List Call)} {descriptors : Nat → Option Nat} {s t : System State Own Instruction}
  {own own' : Own} {i : Nat} {seen : List Event} {noticed : List Notice}

theorem Passing.run (tended : Tended False s) (begins : s.threads[i]? = some ⟨own, [.drain]⟩) (fresh : own.fates = [])
    (pass : (((machine.restrict (steady descriptors)).restrict unpublished).observe notices).Run s t noticed) :
    Tended False t ∧ ∃ own' todo, t.threads[i]? = some ⟨own', todo⟩ ∧
      Passing descriptors own.live s.shared.poller s.shared.changes t.shared own' todo noticed := by
  refine pass.invariant ⟨tended, own, _, begins, .gathering [] (.inl rfl) fresh (List.append_nil _).symm rfl rfl rfl⟩ ?_
  rintro before mine instruction rest after effect world shared noticed ⟨tended, own', todo, found, passing⟩ observed
  obtain ⟨unobserved, performed, rfl⟩ := Option.map_eq_some_iff.mp observed
  obtain ⟨within, performed⟩ := Machine.restrict_perform.mp performed
  obtain ⟨same, performed⟩ := Machine.restrict_perform.mp performed
  exact ⟨tended.step False.elim performed, passing.step tended found same within performed⟩

end Run

end PeerSubstrate.Reactor
