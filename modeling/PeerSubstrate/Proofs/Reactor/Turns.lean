import PeerSubstrate.Proofs.Concurrency.Run
import PeerSubstrate.Reactor.Worker

/-!
# Turns of the reactor's threads

Of what a thread of the reactor has to do, others depend on two things only: the point of its loop at which it stands, if
it is a worker (`Post`), and what it still owes for something it has queued (`errands`). What a step does to these and to
the state that the threads share is said once (`Turn`), for threads whose instructions are in order (`Orderly`).
-/

namespace PeerSubstrate.Reactor
open PeerSubstrate.Concurrency

/-- Threads that are about to make calls, one after another, and no worker yet. -/
def callers (idleIterations : Nat) (calls : List (List Call)) : System State Own Instruction :=
  ⟨{ idleIterations }, calls.map fun calls => ⟨{}, calls.map Instruction.ofCall⟩⟩

/-- Where a worker stands: it waits for the poller, goes round its loop, leaves, or makes sure that it may leave. -/
inductive Post where
  | outside
  | announcing
  | seeingRegistrations
  | seeingChanges
  | polling (waits : Bool)
  | serving
  | vacating
  | inspecting
  | regaining
  | retiring
  deriving DecidableEq

/-- The worker has the poller. -/
def Post.inLoop : Post → Bool
  | .outside => false
  | _ => true

/-- The worker is the one that the owner slot is for. -/
def Post.inOffice : Post → Bool
  | .inspecting | .regaining | .retiring => false
  | _ => true

namespace Instruction

def post? : Instruction → Option Post
  | .lock => some .outside
  | .announce => some .announcing
  | .seeRegistrations => some .seeingRegistrations
  | .seeChanges => some .seeingChanges
  | .poll waits => some (.polling waits)
  | .tickAll | .attach | .drain | .applyAll | .publish | .decide => some .serving
  | .vacate => some .vacating
  | .inspect => some .inspecting
  | .regain => some .regaining
  | .retire => some .retiring
  | _ => none

/-- Whoever has queued a registration has this to do until there is a worker for it. -/
def elects : Instruction → Bool
  | .ensure | .claim _ | .spawn _ => true
  | _ => false

/-- Whoever has queued anything has this to do until the worker knows. -/
def alerts : Instruction → Bool
  | .ensure | .claim _ | .glance | .wake => true
  | _ => false

/-- The number of the worker that this is going to start. -/
def starts? : Instruction → Option Nat
  | .spawn worker => some worker
  | _ => none

/-- Another thread may depend on this. -/
def errand (i : Instruction) : Bool := i.elects || i.alerts

end Instruction

/-- The post of a thread, if it is a worker that has not ended. -/
def post? (todo : List Instruction) : Option Post := todo.findSome? Instruction.post?

def errands (todo : List Instruction) : List Instruction := todo.filter Instruction.errand

theorem post?_append_of_free {todo rest : List Instruction} (free : ∀ i ∈ todo, i.post? = none) :
    post? (todo ++ rest) = post? rest := by
  unfold post?
  rw [List.findSome?_append, List.findSome?_eq_none_iff.mpr free, Option.none_or]

theorem errands_append (todo rest : List Instruction) : errands (todo ++ rest) = errands todo ++ errands rest :=
  List.filter_append ..

theorem errands_eq_nil {todo : List Instruction} (free : ∀ i ∈ todo, i.errand = false) : errands todo = [] :=
  List.filter_eq_nil_iff.mpr fun i member => Bool.eq_false_iff.mp (free i member)

/-- What may stand behind an instruction. -/
def Instruction.Leads : Instruction → List Instruction → Prop
  | .lock, rest => rest = [.announce]
  | .unblock, rest => Reactor.post? rest = some .serving
  | .enroll _ _, rest => rest = [.attach]
  | .panic, rest => rest.head? = some .guarded
  | i, rest => i.post?.isSome = true → rest = []

/-- It concerns nobody else, wherever it stands. -/
def Instruction.Apart (i : Instruction) : Prop := i.post? = none ∧ i.errand = false ∧ ∀ others, i.Leads others

/-- What a thread has to do is in order: nothing stands behind a point of the loop, and a panic is caught. -/
def Orderly : List Instruction → Prop
  | [] => True
  | instruction :: rest => instruction.Leads rest ∧ Orderly rest

private theorem Orderly.prepend {todo rest : List Instruction} (free : ∀ i ∈ todo, i.Apart) (orderly : Orderly rest) :
    Orderly (todo ++ rest) := by
  induction todo with
  | nil => exact orderly
  | cons instruction todo ih =>
    obtain ⟨first, others⟩ := List.forall_mem_cons.mp free
    exact ⟨first.2.2 _, ih others⟩

/-- A point of the loop is the last thing a worker has to do. -/
theorem orderly_post {i : Instruction} (post : i.post?.isSome = true) (inside : i ≠ .lock) : Orderly [i] := by
  refine ⟨?_, trivial⟩
  cases i <;> simp [Instruction.post?] at post <;> first | exact absurd rfl inside | exact fun _ => rfl

/-! ## Turns -/

/-- The part of the shared state that threads arrange themselves by. -/
structure Desk where
  registrations : List Nat
  changes : List Change
  owner : Nat
  nextWorker : Nat
  blocked : Bool
  woken : Bool
  held : Bool

def State.desk (s : State) : Desk :=
  ⟨s.registrations, s.changes, s.owner, s.nextWorker, s.blocked, s.woken, s.holder.isSome⟩

/-- A thread with the number `worker` does its errands `gone`, owes `new` ones, moves to another post and starts the
workers with the numbers `started`. Unless it is `safe` from that, it may break down while it serves. A registration
leads to a new worker, or the worker is to be told; a worker that leaves stays if it is needed and nobody else has come. -/
inductive Turn (safe : Prop) (worker : Nat) : Desk → Option Post → List Instruction →
    Desk → Option Post → List Instruction → List Nat → Prop
  | apart {d p} : Turn safe worker d p [] d p [] []
  | register {d p} (selectable : Nat) :
      Turn safe worker d p [] { d with registrations := d.registrations ++ [selectable] } p [.ensure] []
  | ensure {d p} : Turn safe worker d p [.ensure] { d with nextWorker := d.nextWorker + 1 } p [.claim d.nextWorker] []
  | elect {d p other} : d.owner = noWorker →
      Turn safe worker d p [.claim other] { d with owner := other } p [.spawn other] []
  | spawn {d p other} : Turn safe worker d p [.spawn other] d p [] [other]
  | defer {d p other} : d.owner ≠ noWorker → Turn safe worker d p [.claim other] d p [.glance] []
  | request {d p} (change : Change) :
      Turn safe worker d p [] { d with changes := d.changes ++ [change] } p [.glance] []
  | glance {d p} : Turn safe worker d p [.glance] d p (if d.blocked then [.wake] else []) []
  | wake {d p} : Turn safe worker d p [.wake] { d with woken := true } p [] []
  | enter {d} : d.held = false → Turn safe worker d (some .outside) [] { d with held := true } (some .announcing) [] []
  | announce {d} : Turn safe worker d (some .announcing) [] { d with blocked := true } (some .seeingRegistrations) [] []
  | seeRegistrations {d} : Turn safe worker d (some .seeingRegistrations) [] d
      (some (if d.registrations.isEmpty then .seeingChanges else .polling false)) [] []
  | seeChanges {d} : Turn safe worker d (some .seeingChanges) [] d (some (.polling d.changes.isEmpty)) [] []
  | poll {d waits} : Turn safe worker d (some (.polling waits)) [] { d with woken := false } (some .serving) [] []
  | unblock {d} : Turn safe worker d (some .serving) [] { d with blocked := false } (some .serving) [] []
  | serve {d registrations changes} : registrations <:+ d.registrations → changes <:+ d.changes →
      Turn safe worker d (some .serving) [] { d with registrations, changes } (some .serving) [] []
  | again {d} : Turn safe worker d (some .serving) [] d (some .announcing) [] []
  | leave {d} : Turn safe worker d (some .serving) [] d (some .vacating) [] []
  | vacate {d} : Turn safe worker d (some .vacating) [] { d with owner := noWorker } (some .inspecting) [] []
  | inspect {d} : Turn safe worker d (some .inspecting) [] d
      (some (if d.registrations.isEmpty then .retiring else .regaining)) [] []
  | regain {d} : d.owner = noWorker →
      Turn safe worker d (some .regaining) [] { d with owner := worker } (some .announcing) [] []
  | desist {d} : d.owner ≠ noWorker → Turn safe worker d (some .regaining) [] d (some .retiring) [] []
  | retire {d} : Turn safe worker d (some .retiring) [] { d with held := false } none [] []
  | breakDown {d} (held : Bool) : ¬ safe → Turn safe worker d (some .serving) [] { d with held } none [] []

/-- A connection that is attached says what it wants to be watched for. -/
def answers (world : World) : Instruction → Bool
  | .enroll _ _ => world.interest.isSome
  | _ => true

section Perform

variable {safe : Prop} {world : World} {me : Nat} {s s' : State} {own own' : Own} {instruction : Instruction}
  {rest : List Instruction} {effect : Effect State Own Instruction Event}

/-- What a thread does when it performs the instruction, with this effect. -/
structure Continues (safe : Prop) (s : State) (own : Own) (instruction : Instruction) (rest : List Instruction)
    (effect : Effect State Own Instruction Event) : Prop where
  orderly : Orderly effect.thread.todo
  worker : effect.thread.own.worker = own.worker
  emptied : .vacate ∈ effect.thread.todo →
    .vacate ∈ rest ∨ effect.thread.todo = [.vacate] ∧ effect.thread.own.live = []
  turn : ∃ new started, errands effect.thread.todo = new ++ errands rest ∧
    effect.started = started.map workerThread ∧
    Turn safe own.worker s.desk (post? (instruction :: rest)) (errands [instruction])
      effect.shared.desk (post? effect.thread.todo) new started

private theorem Continues.goOn {todo : List Instruction} {events : List Event}
    (performed : Reactor.goOn s' own' rest todo events = some effect) (worker : own'.worker = own.worker)
    (orderly : Orderly (todo ++ rest)) (stays : .vacate ∉ todo)
    (turn : Turn safe own.worker s.desk (post? (instruction :: rest)) (errands [instruction]) s'.desk (post? (todo ++ rest))
      (errands todo) []) : Continues safe s own instruction rest effect := by
  cases performed
  refine ⟨orderly, worker, fun member => ?_, errands todo, [], errands_append todo rest, rfl, turn⟩
  exact .inl ((List.mem_append.mp member).resolve_left stays)

/-- The thread goes on to something that concerns nobody else. -/
theorem Continues.apart {todo : List Instruction} {events : List Event}
    (performed : Reactor.goOn s' own' rest todo events = some effect) (worker : own'.worker = own.worker)
    (same : s'.desk = s.desk) (orderly : Orderly (todo ++ rest)) (quiet : errands [instruction] = [])
    (here : instruction.post? = none) (posts : ∀ i ∈ todo, i.post? = none) (free : ∀ i ∈ todo, i.errand = false) :
    Continues safe s own instruction rest effect := by
  refine .goOn performed worker orderly (fun member => ?_) ?_
  · simpa [Instruction.post?] using posts _ member
  · have before : post? (instruction :: rest) = post? rest := by simp [post?, here]
    rw [before, quiet, same, post?_append_of_free posts, errands_eq_nil free]
    exact .apart

/-- A worker goes from one point of its loop to the next one. -/
theorem Continues.move {next : Instruction} {events : List Event}
    (performed : Reactor.goOn s' own' [] [next] events = some effect) (worker : own'.worker = own.worker)
    (post : next.post?.isSome = true) (inside : next ≠ .lock) (stays : next ≠ .vacate) (free : next.errand = false)
    (turn : Turn safe own.worker s.desk (post? [instruction]) (errands [instruction]) s'.desk next.post? [] []) :
    Continues safe s own instruction [] effect := by
  have there : post? [next] = next.post? := by
    unfold post?
    rw [List.findSome?_cons]
    cases next.post? <;> rfl
  have owed : errands [next] = [] := errands_eq_nil (by simpa using free)
  refine .goOn performed worker (orderly_post post inside) (by simpa using stays.symm) ?_
  rw [List.append_nil, there, owed]
  exact turn

theorem post?_last {todo : List Instruction} {last : Instruction} (free : ∀ i ∈ todo, i.post? = none) :
    post? (todo ++ [last]) = last.post? := by
  rw [post?_append_of_free free]
  unfold post?
  rw [List.findSome?_cons]
  cases last.post? <;> rfl

/-- A serving worker is going to do more, and to go on serving. -/
theorem Continues.serve (todo : List Instruction) (last : Instruction) {events : List Event}
    (performed : Reactor.goOn s' own' [] (todo ++ [last]) events = some effect) (worker : own'.worker = own.worker)
    (here : instruction.post? = some .serving) (quiet : instruction.errand = false) (there : last.post? = some .serving)
    (free : ∀ i ∈ todo, i.Apart) (silent : last.errand = false)
    (registrations : s'.registrations <:+ s.registrations) (changes : s'.changes <:+ s.changes)
    (same : s'.desk = { s.desk with registrations := s'.registrations, changes := s'.changes }) :
    Continues safe s own instruction [] effect := by
  have inside : last ≠ .lock := by
    rintro rfl
    simp [Instruction.post?] at there
  have stays : last ≠ .vacate := by
    rintro rfl
    simp [Instruction.post?] at there
  refine .goOn performed worker ?_ ?_ ?_
  · rw [List.append_nil]
    exact .prepend free (orderly_post (by simp [there]) inside)
  · intro member
    rcases List.mem_append.mp member with early | late
    · simpa [Instruction.post?] using (free _ early).1
    · exact stays (List.mem_singleton.mp late).symm
  · have post : post? [instruction] = some .serving := by simp [post?, here]
    have owed : errands (todo ++ [last]) = [] := by
      refine errands_eq_nil fun i member => ?_
      rcases List.mem_append.mp member with early | late
      · exact (free i early).2.1
      · rwa [List.mem_singleton.mp late]
    rw [post, errands_eq_nil (by simpa using quiet), List.append_nil, post?_last fun i member => (free i member).1, there, owed, same]
    exact .serve registrations changes

theorem orderly_calls (calls : List Call) : Orderly (calls.map Instruction.ofCall) := by
  induction calls with
  | nil => trivial
  | cons call calls ih =>
    refine ⟨?_, ih⟩
    cases call <;> exact fun post => Bool.noConfusion post

/-- What a connection is called for: it makes calls of its own, and it may panic at the end. -/
theorem Continues.call {selectable token : Nat} {callback : Callback} (orderly : Orderly rest)
    (performed : perform world me s own (.call selectable token callback) rest = some effect) :
    Continues safe s own (.call selectable token callback) rest effect := by
  have behind : Orderly (.guarded :: rest) := ⟨fun post => Bool.noConfusion post, orderly⟩
  have calls : ∀ i ∈ world.calls.map Instruction.ofCall, i.Apart := by
    intro i member
    obtain ⟨call, -, rfl⟩ := List.mem_map.mp member
    cases call <;> exact ⟨rfl, rfl, fun _ post => Bool.noConfusion post⟩
  have panic : ∀ i ∈ (if world.fault = some .panic then [Instruction.panic] else []) ++ [.guarded],
      i.post? = none ∧ i.errand = false := by
    intro i member
    rcases List.mem_append.mp member with here | here
    · split at here
      · cases List.mem_singleton.mp here
        exact ⟨rfl, rfl⟩
      · cases here
    · cases List.mem_singleton.mp here
      exact ⟨rfl, rfl⟩
  have parts : ∀ i ∈ world.calls.map Instruction.ofCall ++ (if world.fault = some .panic then [.panic] else []) ++ [.guarded],
      i.post? = none ∧ i.errand = false := by
    intro i member
    rw [List.append_assoc] at member
    rcases List.mem_append.mp member with here | here
    · exact ⟨(calls i here).1, (calls i here).2.1⟩
    · exact panic i here
  refine .apart performed rfl rfl ?_ rfl rfl (fun i member => (parts i member).1) fun i member => (parts i member).2
  rw [List.append_assoc, List.append_assoc]
  refine .prepend calls ?_
  by_cases panics : world.fault = some .panic
  · rw [if_pos panics]
    exact ⟨rfl, behind⟩
  · rw [if_neg panics]
    exact behind

/-- Either the connection is taken in, or it is dropped; or it panics, and nothing catches that. -/
theorem Continues.enroll {selectable token : Nat} (answered : safe → world.interest.isSome = true)
    (performed : performEnroll s own [.attach] world me selectable token = some effect) :
    Continues safe s own (.enroll selectable token) [.attach] effect := by
  have attach : Orderly [.attach] := ⟨fun _ => rfl, trivial⟩
  have enrolled : ∀ {s' : State} {interest : Option Interest}, s'.desk = s.desk →
      Reactor.goOn s' own [.attach] [.call selectable token .registered, .insert token ⟨selectable, interest⟩]
        [.attached selectable token] = some effect → Continues safe s own (.enroll selectable token) [.attach] effect := by
    intro s' interest same performed
    refine .apart performed rfl same ⟨?_, ?_, attach⟩ rfl rfl (by simp [Instruction.post?]) (by simp [Instruction.errand, Instruction.elects, Instruction.alerts])
    · exact fun post => Bool.noConfusion post
    · exact fun post => Bool.noConfusion post
  unfold performEnroll at performed
  split at performed
  · next silent =>
    -- Nothing is left of the thread, and only it may have held the poller.
    cases performed
    refine ⟨trivial, rfl, fun member => (List.not_mem_nil member).elim, [], [], rfl, rfl, ?_⟩
    refine .breakDown _ fun isSafe => ?_
    have interest := answered isSafe
    simp [silent] at interest
  · exact enrolled rfl performed
  · split at performed
    · next poller _ => exact @enrolled { s with poller } _ rfl performed
    · exact .apart performed rfl rfl attach rfl rfl (by simp) (by simp)

private theorem Continues.apply {token : Nat} {fate : Fate} (orderly : Orderly rest)
    (performed : perform world me s own (.apply token fate) rest = some effect) :
    Continues safe s own (.apply token fate) rest effect := by
  simp only [perform, performApply] at performed
  split at performed
  · refine .apart performed rfl rfl ⟨fun post => Bool.noConfusion post, orderly⟩ rfl rfl (by simp [Instruction.post?]) ?_
    simp [Instruction.errand, Instruction.elects, Instruction.alerts]
  · exact .apart performed rfl rfl orderly rfl rfl (by simp) (by simp)

private theorem Continues.poll {waits : Bool} (performed : perform world me s own (.poll waits) [] = some effect) :
    Continues safe s own (.poll waits) [] effect := by
  have apart : ∀ (reports : List Readiness), ∀ i ∈ reports.map Instruction.dispatch, i.Apart := by
    intro reports i member
    obtain ⟨report, -, rfl⟩ := List.mem_map.mp member
    exact ⟨rfl, rfl, fun _ post => Bool.noConfusion post⟩
  have polled : ∀ (reports : List Readiness),
      Reactor.goOn { s with woken := false, poller := s.poller.reported reports } own []
        ([.unblock] ++ reports.map .dispatch ++ [.tickAll]) = some effect → Continues safe s own (.poll waits) [] effect := by
    intro reports performed
    have serving : post? (reports.map .dispatch ++ [.tickAll]) = some .serving :=
      post?_last fun i member => (apart reports i member).1
    have behind : Orderly (reports.map .dispatch ++ [.tickAll]) :=
      .prepend (apart reports) (orderly_post rfl (by simp))
    refine .goOn performed rfl ?_ ?_ ?_
    · rw [List.append_nil, List.append_assoc]
      exact ⟨serving, behind⟩
    · simp
    · have owed : errands ([.unblock] ++ reports.map .dispatch ++ [.tickAll]) = [] := by
        refine errands_eq_nil fun i member => ?_
        simp only [List.append_assoc, List.mem_append, List.mem_singleton] at member
        rcases member with rfl | here | rfl
        · rfl
        · exact (apart reports i here).2.1
        · rfl
      have post : post? ([.unblock] ++ reports.map .dispatch ++ [.tickAll] ++ []) = some .serving := by
        rw [List.append_nil, List.append_assoc]
        exact serving
      rw [owed, post]
      exact .poll
  simp only [perform] at performed
  split at performed
  · cases performed
  · exact polled _ performed

private theorem Continues.attach (performed : perform world me s own .attach [] = some effect) :
    Continues safe s own .attach [] effect := by
  simp only [perform] at performed
  cases isQueue : s.registrations with
  | nil =>
    rw [isQueue] at performed
    exact .serve [] .drain performed rfl rfl rfl rfl (by simp) rfl (List.suffix_refl _) (List.suffix_refl _) rfl
  | cons selectable registrations =>
    rw [isQueue] at performed
    have attach : Orderly [.attach] := ⟨fun _ => rfl, trivial⟩
    refine .goOn performed rfl ⟨rfl, attach⟩ (by simp) ?_
    have fewer : registrations <:+ s.desk.registrations := by
      rw [State.desk, isQueue]
      exact List.suffix_cons _ _
    exact .serve fewer (List.suffix_refl _)

private theorem Continues.drain (performed : perform world me s own .drain [] = some effect) :
    Continues safe s own .drain [] effect := by
  simp only [perform] at performed
  cases isQueue : s.changes with
  | nil =>
    rw [isQueue] at performed
    exact .serve [] .applyAll performed rfl rfl rfl rfl (by simp) rfl (List.suffix_refl _) (List.suffix_refl _) rfl
  | cons change changes =>
    rw [isQueue] at performed
    refine .serve [] .drain performed rfl rfl rfl rfl (by simp) rfl (List.suffix_refl _) ?_ rfl
    rw [isQueue]
    exact List.suffix_cons _ _

/-- A worker that leaves has nothing to serve. -/
theorem Continues.decide (performed : perform world me s own .decide [] = some effect) :
    Continues safe s own .decide [] effect := by
  simp only [perform, performDecide] at performed
  split at performed
  · exact .move performed rfl rfl (by simp) (by simp) rfl .again
  · next unneeded =>
    split at performed
    · exact .move performed rfl rfl (by simp) (by simp) rfl .again
    · have empty : own.live = [] := by
        cases isLive : own.live with
        | nil => rfl
        | cons => simp [isLive] at unneeded
      cases performed
      refine ⟨orderly_post rfl (by simp), rfl, fun _ => .inr ⟨rfl, empty⟩, [], [], rfl, rfl, .leave⟩

/-- What a thread does whose instructions are in order. -/
theorem Orderly.continues (orderly : Orderly (instruction :: rest)) (answered : safe → answers world instruction = true)
    (performed : perform world me s own instruction rest = some effect) : Continues safe s own instruction rest effect := by
  obtain ⟨leads, orderly⟩ := orderly
  cases instruction with
  | register selectable => exact .goOn performed rfl ⟨fun post => Bool.noConfusion post, orderly⟩ (by simp) (.register selectable)
  | ensure => exact .goOn performed rfl ⟨fun post => Bool.noConfusion post, orderly⟩ (by simp) .ensure
  | claim worker =>
    simp only [perform] at performed
    split at performed
    · next free => exact .goOn performed rfl ⟨fun post => Bool.noConfusion post, orderly⟩ (by simp) (.elect free)
    · next taken => exact .goOn performed rfl ⟨fun post => Bool.noConfusion post, orderly⟩ (by simp) (.defer taken)
  | spawn worker =>
    cases performed
    refine ⟨⟨fun post => Bool.noConfusion post, orderly⟩, rfl, fun member => ?_, [], [worker], rfl, rfl, .spawn⟩
    exact .inl (by simpa using member)
  | request change => exact .goOn performed rfl ⟨fun post => Bool.noConfusion post, orderly⟩ (by simp) (.request change)
  | glance =>
    refine .goOn performed rfl ?_ ?_ ?_
    · split
      · exact ⟨fun post => Bool.noConfusion post, orderly⟩
      · exact orderly
    · split <;> simp
    · have turn : Turn safe own.worker s.desk (post? rest) [.glance] s.desk (post? rest) (if s.blocked then [.wake] else []) [] :=
        .glance
      split at turn
      · next blocked =>
        rw [if_pos blocked]
        exact turn
      · next unblocked =>
        rw [if_neg unblocked]
        exact turn
  | wake => exact .goOn performed rfl orderly (by simp) .wake
  | countStarted | guarded => exact .apart performed rfl rfl orderly rfl rfl (by simp) (by simp)
  | dispatch report =>
    simp only [perform] at performed
    split at performed
    · refine .apart performed rfl rfl ⟨fun post => Bool.noConfusion post, orderly⟩ rfl rfl (by simp [Instruction.post?]) ?_
      simp [Instruction.errand, Instruction.elects, Instruction.alerts]
    · exact .apart performed rfl rfl orderly rfl rfl (by simp) (by simp)
  | lock =>
    cases leads
    simp only [perform] at performed
    split at performed
    · next free => exact .goOn performed rfl orderly (by simp) (.enter (by simp [State.desk, free]))
    · cases performed
  | announce =>
    cases leads rfl
    exact .move performed rfl rfl (by simp) (by simp) rfl .announce
  | seeRegistrations =>
    cases leads rfl
    have turn : Turn safe own.worker s.desk (some .seeingRegistrations) [] s.desk
        (some (if s.registrations.isEmpty then .seeingChanges else .polling false)) [] [] := .seeRegistrations
    simp only [perform] at performed
    split at turn
    · next none =>
      rw [if_pos none] at performed
      exact .move performed rfl rfl (by simp) (by simp) rfl turn
    · next some =>
      rw [if_neg some] at performed
      exact .move performed rfl rfl (by simp) (by simp) rfl turn
  | seeChanges =>
    cases leads rfl
    exact .move performed rfl rfl (by simp) (by simp) rfl .seeChanges
  | poll waits =>
    cases leads rfl
    exact .poll performed
  | unblock =>
    have post : post? (.unblock :: rest) = some .serving := leads
    refine .goOn performed rfl orderly (by simp) ?_
    rw [post, List.nil_append, show post? rest = some .serving from leads]
    exact .unblock
  | call selectable token callback => exact .call orderly performed
  | panic =>
    obtain ⟨behind, rfl⟩ := List.head?_eq_some_iff.mp leads
    have caught : Instruction.unwind (.guarded :: behind) = .guarded :: behind := rfl
    simp only [perform, raise, caught, Option.some.injEq] at performed
    subst performed
    exact ⟨orderly, rfl, .inl, [], [], rfl, rfl, .apart⟩
  | enroll selectable token =>
    cases leads
    exact .enroll answered performed
  | insert token connection => exact .apart performed rfl rfl orderly rfl rfl (by simp) (by simp)
  | apply token fate => exact .apply orderly performed
  | tickAll =>
    cases leads rfl
    refine .serve _ _ performed rfl rfl rfl rfl (fun i member => ?_) rfl (List.suffix_refl _) (List.suffix_refl _) rfl
    obtain ⟨token, -, ticks⟩ := List.mem_filterMap.mp member
    obtain ⟨connection, -, rfl⟩ := Option.map_eq_some_iff.mp ticks
    exact ⟨rfl, rfl, fun _ post => Bool.noConfusion post⟩
  | attach =>
    cases leads rfl
    exact .attach performed
  | drain =>
    cases leads rfl
    exact .drain performed
  | applyAll =>
    cases leads rfl
    refine .serve _ _ performed rfl rfl rfl rfl (fun i member => ?_) rfl (List.suffix_refl _) (List.suffix_refl _) rfl
    obtain ⟨token, -, applies⟩ := List.mem_filterMap.mp member
    obtain ⟨fate, -, rfl⟩ := Option.map_eq_some_iff.mp applies
    exact ⟨rfl, rfl, fun _ post => Bool.noConfusion post⟩
  | publish =>
    cases leads rfl
    exact .serve [] .decide performed rfl rfl rfl rfl (by simp) rfl (List.suffix_refl _) (List.suffix_refl _) rfl
  | decide =>
    cases leads rfl
    exact .decide performed
  | vacate =>
    cases leads rfl
    exact .move performed rfl rfl (by simp) (by simp) rfl .vacate
  | inspect =>
    cases leads rfl
    have turn : Turn safe own.worker s.desk (some .inspecting) [] s.desk
        (some (if s.registrations.isEmpty then .retiring else .regaining)) [] [] := .inspect
    simp only [perform] at performed
    split at turn
    · next none =>
      rw [if_pos none] at performed
      exact .move performed rfl rfl (by simp) (by simp) rfl turn
    · next some =>
      rw [if_neg some] at performed
      exact .move performed rfl rfl (by simp) (by simp) rfl turn
  | regain =>
    cases leads rfl
    simp only [perform] at performed
    split at performed
    · next free => exact .move performed rfl rfl (by simp) (by simp) rfl (.regain free)
    · next taken => exact .move performed rfl rfl (by simp) (by simp) rfl (.desist taken)
  | retire =>
    cases leads rfl
    cases performed
    exact ⟨trivial, rfl, fun member => (List.not_mem_nil member).elim, [], [], rfl, rfl, .retire⟩

end Perform

end PeerSubstrate.Reactor
