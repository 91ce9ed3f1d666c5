import PeerSubstrate.Proofs.Reactor.Stints
import PeerSubstrate.Proofs.Reactor.Tables

/-!
# The worker among the threads

Connections are the affair of the worker that is in its loop, and of no other thread (`Stationed`). So a step of the whole
system leaves the bench alone, or lets a worker enter its loop, or is a stint of the worker (`Tended.proceeds`).
-/

namespace PeerSubstrate.Reactor
open PeerSubstrate.Concurrency

/-- A thread has to do with connections only as a worker that is in its loop. -/
structure Stationed (thread : Thread Own Instruction) : Prop where
  away : post? thread.todo = none → ∀ i ∈ thread.todo, i.outward = true
  fresh : post? thread.todo = some .outside → thread.todo = [.lock, .announce] ∧ thread.own.live = []
  inPhase : inLoop thread = true → InPhase thread.todo
  leaving : (∃ i ∈ thread.todo, i.phase? = some .leaving) → thread.own.live = []
  distinct : (thread.own.fates.map Prod.fst).Nodup

section Step

variable {world : World} {me : Nat} {s : State} {own : Own} {instruction : Instruction} {rest : List Instruction}
  {effect : Effect State Own Instruction Event}

/-- Changes that are brought together are at most one for each connection. -/
theorem distinct_of_perform (distinct : (own.fates.map Prod.fst).Nodup)
    (performed : perform world me s own instruction rest = some effect) : (effect.thread.own.fates.map Prod.fst).Nodup := by
  have raised : ∀ {rest}, raise s own rest me = some effect → (effect.thread.own.fates.map Prod.fst).Nodup := by
    intro rest performed
    unfold raise at performed
    split at performed <;> cases performed <;> exact distinct
  cases instruction with
  | claim | lock | poll | dispatch | attach | regain =>
    simp only [perform] at performed
    split at performed <;> cases performed <;> exact distinct
  | drain =>
    simp only [perform] at performed
    split at performed
    · cases performed
      exact distinct
    · cases performed
      exact Fates.nodup_add _ distinct
  | applyAll =>
    cases performed
    exact List.nodup_nil
  | panic => exact raised performed
  | enroll selectable token =>
    simp only [perform, performEnroll] at performed
    split at performed
    · exact raised performed
    · cases performed
      exact distinct
    · split at performed <;> cases performed <;> exact distinct
  | decide =>
    simp only [perform, performDecide] at performed
    split at performed <;> cases performed <;> exact distinct
  | _ =>
    cases performed
    exact distinct

/-- What does not concern connections leaves the bench alone, and leads to nothing that does. -/
theorem Stint.of_outward {b b' : Bench} {events : List Event} {todo : List Instruction}
    (stint : Stint world b instruction rest events b' todo) (outward : instruction.outward = true) :
    events = [] ∧ b' = b ∧ ∃ more, (∀ i ∈ more, i.outward = true) ∧ todo = more ++ rest := by
  cases stint with
  | aside _ _ free => exact ⟨rfl, rfl, _, free, rfl⟩
  | look here => rcases here with rfl | rfl <;> cases outward
  | again here => rcases here with rfl | rfl <;> cases outward
  | depart here => cases (Instruction.phase?_of_outward outward).symm.trans here
  | _ => cases outward

theorem post?_of_outward {todo : List Instruction} (outward : ∀ i ∈ todo, i.outward = true) : post? todo = none :=
  List.findSome?_eq_none_iff.mpr fun i member => Instruction.post?_of_idle (Instruction.idle_of_outward (outward i member))

private theorem Stationed.of_outward {thread : Thread Own Instruction} (outward : ∀ i ∈ thread.todo, i.outward = true)
    (distinct : (thread.own.fates.map Prod.fst).Nodup) : Stationed thread where
  away _ := outward
  fresh outside := by cases (post?_of_outward outward).symm.trans outside
  leaving := by
    rintro ⟨i, member, leaves⟩
    cases (Instruction.phase?_of_outward (outward i member)).symm.trans leaves
  inPhase inside := by
    rw [inLoop, post?_of_outward outward] at inside
    cases inside
  distinct := distinct

private theorem stationed_workerThread (number : Nat) : Stationed (workerThread number) where
  away none := by cases none
  fresh _ := ⟨rfl, rfl⟩
  leaving := by simp [workerThread, Instruction.phase?]
  inPhase inside := by cases inside
  distinct := List.nodup_nil

/-- A thread that is not in its loop is about to enter it, or has nothing to do with connections. -/
theorem Stationed.outside (stationed : Stationed ⟨own, instruction :: rest⟩)
    (apart : inLoop ⟨own, instruction :: rest⟩ = false) :
    (instruction = .lock ∧ rest = [.announce] ∧ own.live = []) ∨ ∀ i ∈ instruction :: rest, i.outward = true := by
  cases isPost : post? (instruction :: rest) with
  | none => exact .inr (stationed.away isPost)
  | some post =>
    have outside : post = .outside := by
      simp only [inLoop, isPost, Option.any_some] at apart
      cases post <;> first | rfl | exact Bool.noConfusion apart
    obtain ⟨isTodo, bare⟩ := stationed.fresh (outside ▸ isPost)
    exact .inl ⟨(List.cons.inj isTodo).1, (List.cons.inj isTodo).2, bare⟩

theorem Stationed.step (stationed : Stationed ⟨own, instruction :: rest⟩) (orderly : Orderly (instruction :: rest))
    (performed : perform world me s own instruction rest = some effect) : Stationed effect.thread := by
  have distinct := distinct_of_perform stationed.distinct performed
  cases inside : inLoop ⟨own, instruction :: rest⟩ with
  | true =>
    have begun : instruction ≠ .lock := by
      rintro rfl
      cases inside
    have stint := orderly.stint begun stationed.distinct performed
    constructor
    case away =>
      intro none i member
      rcases stint.stays inside with stays | ⟨empty, -⟩
      · rw [none] at stays
        cases stays
      · rw [empty] at member
        cases member
    case fresh =>
      intro outside
      rcases stint.stays inside with stays | ⟨empty, -⟩
      · rw [outside] at stays
        cases stays
      · rw [empty] at outside
        cases outside
    case inPhase => exact fun _ => stint.inPhase (stationed.inPhase inside)
    case leaving =>
      rintro ⟨i, member, leaves⟩
      rcases stint.resting (stationed.inPhase inside) member leaves rfl with ⟨other, -⟩ | ⟨same, q, isPhase, -, from_⟩
      · cases other
      · have bare : own.live = [] := by
          rcases from_ rfl with rfl | empty
          · exact stationed.leaving ⟨instruction, List.mem_cons_self .., isPhase⟩
          · exact empty
        exact (congrArg Bench.live same).trans bare
    case distinct => exact distinct
  | false =>
    rcases stationed.outside inside with ⟨rfl, rfl, bare⟩ | outward
    · simp only [perform] at performed
      split at performed
      · cases performed
        exact {
          away := fun none => by cases none
          fresh := fun outside => by cases outside
          leaving := fun _ => bare
          inPhase := fun _ => .single _
          distinct := distinct }
      · cases performed
    · have begun : instruction ≠ .lock := by
        rintro rfl
        cases outward _ (List.mem_cons_self ..)
      obtain ⟨-, -, more, free, isTodo⟩ :=
        (orderly.stint begun stationed.distinct performed).of_outward (outward _ (List.mem_cons_self ..))
      refine .of_outward (fun i member => ?_) distinct
      rw [isTodo] at member
      rcases List.mem_append.mp member with early | late
      · exact free i early
      · exact outward i (List.mem_cons_of_mem _ late)

end Step

/-! ## The worker among the threads -/

/-- The worker that is in its loop. Without one there is nothing to serve and nothing to do for it. -/
def workerOf (s : System State Own Instruction) : Thread Own Instruction := (s.threads.find? inLoop).getD ⟨{}, []⟩

/-- What the worker works on. -/
def benchOf (s : System State Own Instruction) : Bench := .of s.shared (workerOf s).own

/-- What holds while threads make calls and workers serve, of whom none breaks down if that is `safe`. -/
structure Tended (safe : Prop) (s : System State Own Instruction) : Prop where
  elected : Elected safe s
  stationed : ∀ thread ∈ s.threads, Stationed thread

/-- What a step does to the bench and to what the worker has to do: nothing, or a worker enters its loop, or it performs its
next instruction. -/
inductive Proceeds (world : World) (instruction : Instruction) (events : List Event) :
    Bench → List Instruction → Bench → List Instruction → Prop
  | aside {b todo} : instruction ≠ .announce → events = [] → Proceeds world instruction events b todo b todo
  | enter {b} : instruction ≠ .announce → events = [] → b.live = [] → Proceeds world instruction events b [] b [.announce]
  | work {b b' rest todo} : Stint world b instruction rest events b' todo →
      Proceeds world instruction events b (instruction :: rest) b' todo

section Worker

variable {world : World} {shared : State} {own : Own} {instruction : Instruction} {rest : List Instruction}
  {before after : List (Thread Own Instruction)} {effect : Effect State Own Instruction Event}

private theorem workerOf_eq {s : System State Own Instruction} {one : Thread Own Instruction}
    (threads : s.threads = before ++ one :: after)
    (inside : inLoop one = true) (others : ∀ thread ∈ before, inLoop thread = false) : workerOf s = one := by
  have none : before.find? inLoop = none := List.find?_eq_none.mpr fun thread member => by simp [others thread member]
  rw [workerOf, threads, List.find?_append, none, List.find?_cons_of_pos inside]
  rfl

/-- Whoever is in its loop is the worker. -/
theorem Elected.isWorker {safe : Prop} {s : System State Own Instruction} (elected : Elected safe s)
    {one : Thread Own Instruction} (member : one ∈ s.threads) (inside : inLoop one = true) : workerOf s = one := by
  obtain ⟨shared, threads⟩ := s
  obtain ⟨before, after, rfl⟩ := List.append_of_mem member
  exact workerOf_eq rfl inside fun thread other => elected.outside inside (List.mem_append_left _ other)

private theorem workerOf_of_apart {s : System State Own Instruction} {one : Thread Own Instruction} (numbers : List Nat)
    (threads : s.threads = before ++ one :: (after ++ numbers.map workerThread)) (apart : inLoop one = false) :
    workerOf s = ((before ++ after).find? inLoop).getD ⟨{}, []⟩ := by
  have none : (numbers.map workerThread).find? inLoop = none := by
    refine List.find?_eq_none.mpr fun thread member => ?_
    obtain ⟨number, -, rfl⟩ := List.mem_map.mp member
    exact Bool.false_ne_true
  rw [workerOf, threads, List.find?_append, List.find?_cons_of_neg (by simp [apart]), List.find?_append, List.find?_append, none,
    Option.or_none]

theorem Tended.proceeds (tended : Tended True ⟨shared, before ++ ⟨own, instruction :: rest⟩ :: after⟩)
    (answered : answers world instruction = true)
    (performed : perform world before.length shared own instruction rest = some effect) :
    Proceeds world instruction effect.events (benchOf ⟨shared, before ++ ⟨own, instruction :: rest⟩ :: after⟩)
      (workerOf ⟨shared, before ++ ⟨own, instruction :: rest⟩ :: after⟩).todo
      (benchOf ⟨effect.shared, before ++ effect.thread :: (after ++ effect.started)⟩)
      (workerOf ⟨effect.shared, before ++ effect.thread :: (after ++ effect.started)⟩).todo := by
  have here : ⟨own, instruction :: rest⟩ ∈ before ++ ⟨own, instruction :: rest⟩ :: after := by simp
  have stationed := tended.stationed _ here
  have orderly := tended.elected.orderly _ here
  obtain ⟨orderly', -, -, -, started, -, starts, -⟩ := orderly.continues (fun _ : True => answered) performed
  have next := stationed.step orderly performed
  rw [starts]
  cases inside : inLoop ⟨own, instruction :: rest⟩ with
  | true =>
    have others : ∀ thread ∈ before ++ after, inLoop thread = false := fun thread member => tended.elected.outside inside member
    have alone : (before ++ after).find? inLoop = none := List.find?_eq_none.mpr fun thread member => by simp [others thread member]
    have old : workerOf ⟨shared, before ++ ⟨own, instruction :: rest⟩ :: after⟩ = ⟨own, instruction :: rest⟩ :=
      workerOf_eq rfl inside fun thread member => others thread (List.mem_append_left _ member)
    have begun : instruction ≠ .lock := by
      rintro rfl
      cases inside
    have stint := orderly.stint begun stationed.distinct performed
    rw [benchOf, old]
    cases still : inLoop effect.thread with
    | true =>
      rw [benchOf, workerOf_eq rfl still fun thread member => others thread (List.mem_append_left _ member)]
      exact .work stint
    | false =>
      -- Nothing is left of its own, which is why it may be forgotten.
      rcases stint.stays inside with stays | ⟨empty, ⟨rfl, same⟩ | silent⟩
      · cases still.symm.trans stays
      · have bare : own.live = [] := stationed.leaving ⟨.retire, List.mem_cons_self .., rfl⟩
        have gone : Bench.of effect.shared {} = Bench.of effect.shared effect.thread.own := by
          rw [same, Bench.of, Bench.of, bare]
          exact congrArg (fun b : Bench => { b with live := [] }) same
        rw [benchOf, workerOf_of_apart _ rfl still, alone, Option.getD_none, gone, ← empty]
        exact .work stint
      · cases answered.symm.trans silent
  | false =>
    have old : workerOf ⟨shared, before ++ ⟨own, instruction :: rest⟩ :: after⟩ = ((before ++ after).find? inLoop).getD ⟨{}, []⟩ :=
      workerOf_of_apart [] (by simp) inside
    rcases stationed.outside inside with ⟨rfl, rfl, bare⟩ | outward
    · simp only [perform] at performed
      split at performed
      · next free =>
        cases performed
        -- The poller is free, so there is nobody else in the loop.
        have counted : (before ++ ⟨own, [.lock, .announce]⟩ :: after).countP inLoop = 0 := by
          have bound := tended.elected.alone
          simpa [free] using bound
        have others : ∀ thread ∈ before ++ after, inLoop thread = false := fun thread member =>
          Bool.eq_false_iff.mpr (List.countP_eq_zero.mp counted thread (mem_of_other member))
        have alone : (before ++ after).find? inLoop = none :=
          List.find?_eq_none.mpr fun thread member => by simp [others thread member]
        rw [benchOf, benchOf, old, alone, Option.getD_none,
          workerOf_eq rfl rfl fun thread member => others thread (List.mem_append_left _ member)]
        have same : Bench.of { shared with holder := some before.length } own = Bench.of shared {} := by
          rw [Bench.of, bare]
          rfl
        rw [same]
        exact .enter (by simp) rfl rfl
      · cases performed
    · have begun : instruction ≠ .lock := by
        rintro rfl
        cases outward _ (List.mem_cons_self ..)
      obtain ⟨silent, same, more, free, isTodo⟩ :=
        (orderly.stint begun stationed.distinct performed).of_outward (outward _ (List.mem_cons_self ..))
      have still : inLoop effect.thread = false := by
        have all : ∀ i ∈ effect.thread.todo, i.outward = true := by
          intro i member
          rw [isTodo] at member
          rcases List.mem_append.mp member with early | late
          · exact free i early
          · exact outward i (List.mem_cons_of_mem _ late)
        simp [inLoop, post?_of_outward all]
      have unmoved : ∀ other : Own, Bench.of effect.shared other = Bench.of shared other := by
        intro other
        have poller : effect.shared.poller = shared.poller := congrArg Bench.poller same
        have next : effect.shared.nextToken = shared.nextToken := congrArg Bench.nextToken same
        have connections : effect.shared.connections = shared.connections := congrArg Bench.connections same
        rw [Bench.of, Bench.of, poller, next, connections]
      rw [benchOf, benchOf, old, workerOf_of_apart _ rfl still, unmoved]
      refine .aside ?_ silent
      rintro rfl
      cases outward _ (List.mem_cons_self ..)

theorem Tended.step {safe : Prop} (tended : Tended safe ⟨shared, before ++ ⟨own, instruction :: rest⟩ :: after⟩)
    (answered : safe → answers world instruction = true)
    (performed : perform world before.length shared own instruction rest = some effect) :
    Tended safe ⟨effect.shared, before ++ effect.thread :: (after ++ effect.started)⟩ := by
  have here : ⟨own, instruction :: rest⟩ ∈ before ++ ⟨own, instruction :: rest⟩ :: after := by simp
  have orderly := tended.elected.orderly _ here
  obtain ⟨-, -, -, -, started, -, starts, -⟩ := orderly.continues answered performed
  refine ⟨tended.elected.step answered performed, fun thread member => ?_⟩
  rw [starts] at member
  rcases mem_threads.mp member with rfl | old | ⟨number, -, rfl⟩
  · exact (tended.stationed _ here).step orderly performed
  · exact tended.stationed _ (mem_of_other old)
  · exact stationed_workerThread number

end Worker

section Run

variable {idleIterations : Nat} {calls : List (List Call)} {s : System State Own Instruction} {seen : List Event}

theorem Tended.start (safe : Prop) (idleIterations : Nat) (calls : List (List Call)) :
    Tended safe (callers idleIterations calls) := by
  refine ⟨.start safe idleIterations calls, fun thread member => ?_⟩
  obtain ⟨calls, -, rfl⟩ := List.mem_map.mp member
  refine .of_outward (fun i member => ?_) List.nodup_nil
  obtain ⟨call, -, rfl⟩ := List.mem_map.mp member
  cases call <;> rfl

theorem Tended.safe_run (run : (machine.restrict answers).Run (callers idleIterations calls) s seen) : Tended True s :=
  run.keeps (Tended.start _ _ _) fun tended performed =>
    tended.step (fun _ => (Machine.restrict_perform.mp performed).1) (Machine.restrict_perform.mp performed).2

/-- Callers are not in a loop. -/
theorem workerOf_callers (idleIterations : Nat) (calls : List (List Call)) : workerOf (callers idleIterations calls) = ⟨{}, []⟩ := by
  have none : (callers idleIterations calls).threads.find? inLoop = none := by
    refine List.find?_eq_none.mpr fun thread member => ?_
    have counted : (callers idleIterations calls).threads.countP inLoop = 0 :=
      Nat.le_zero.mp (Elected.start True idleIterations calls).alone
    exact List.countP_eq_zero.mp counted thread member
  rw [workerOf, none]
  rfl

end Run

end PeerSubstrate.Reactor
