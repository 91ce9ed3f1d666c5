import PeerSubstrate.Concurrency.Machine
import PeerSubstrate.Reactor.Connections

/-!
# The reactor

Any thread queues registrations and changes; a single worker serves the connections. It is started by
a registration that finds the owner slot empty, and it leaves after a number of iterations with nothing
to serve. Each iteration waits for readiness, passes it on, ticks every connection, attaches what has
been registered, and applies what has been asked for.

Two handshakes keep anything from being left lying. A worker that clears the owner slot looks at the
queue of registrations again, for one may have been queued by a thread that still found the slot
taken. And a worker announces that it is about to block before it looks whether anything is queued,
while other threads queue first and look at that announcement afterwards.

Connections are the world's: it says what they want, what their callbacks do, and how these end. What
a panic carries has no destructor that panics: it is dropped where nothing catches a second panic.
-/

namespace PeerSubstrate.Reactor
open PeerSubstrate.Concurrency

/-- Iterations with nothing to serve before a worker leaves, unless told otherwise. -/
def defaultIdleIterations : Nat := 50

/-- The owner slot while no worker runs. -/
def noWorker : Nat := 0

inductive Callback where
  | registered
  | ready (readable writable : Bool)
  | tick
  | interestApplied (interest : Option Interest)
  deriving DecidableEq

inductive Call where
  | register (selectable : Nat)
  | change (change : Change)
  deriving DecidableEq

/-- How a callback fails after it has done its work. -/
inductive Fault where
  | error
  | panic
  deriving DecidableEq

inductive Event where
  | called (selectable token : Nat) (callback : Callback)
  | attached (selectable token : Nat)
  | refused (selectable token : Nat)
  | applied (token : Nat) (result : Applied)
  deriving DecidableEq

/-- What the world tells: the reports with which a wait for readiness ends, if it does; the order in
which a table of connections is gone through; and, of the connection at hand, its interest, unless
asking for it panics, its descriptor, if that is open, and what its callback does and how it fails. -/
structure World where
  polled : Option (List Readiness) := some []
  order : List Nat := []
  interest : Option (Option Interest) := some none
  descriptor : Option Nat := none
  calls : List Call := []
  fault : Option Fault := none

/-- The state that all threads share. `owner` is the worker that serves this reactor and `holder` the thread
that uses the poller. The worker is `blocked` or about to be, and once it has been `woken` it will not block
before it has noticed. `nextWorker` and `nextToken` stand for counters of 64 bits: fewer than 2^64 numbers are
drawn from each. -/
structure State where
  idleIterations : Nat := defaultIdleIterations
  registrations : List Nat := []
  changes : List Change := []
  owner : Nat := noWorker
  nextWorker : Nat := noWorker + 1
  workersStarted : Nat := 0
  nextToken : Nat := 1
  connections : Nat := 0
  blocked : Bool := false
  woken : Bool := false
  poller : Poller := []
  holder : Option Nat := none

/-- What only the thread sees: a worker's number, its connections, its iterations with nothing to
serve, and the changes it is bringing together. -/
structure Own where
  worker : Nat := noWorker
  live : Live := []
  idle : Nat := 0
  fates : Fates := []

/-- What a thread has to do.

A registration is queued; then the thread draws the number of the worker that may be needed (`ensure`), takes
the owner slot for it, if that is empty, and starts it. If the slot is taken, and when a change has been queued,
the thread looks whether the worker is blocked (`glance`), and wakes it.

A worker takes the poller. In each iteration it announces that it is about to block, looks whether a
registration or a change is queued, waits for readiness, unless one was or somebody has woken it, and withdraws
its announcement. It passes the reports on and ticks all connections; a call of a connection ends at `guarded`,
where a panic leads as well. It takes one registration after another, has it watched for what it wants
(`enroll`) and takes it in. It takes one change after another, goes through all fates, and lets each connection
undergo its own. Then it publishes the number of its connections and decides whether to go on. If not, it clears
the owner slot, looks at the registrations once more, takes the slot back if something is there and the slot is
still empty, and else lets go of the poller and ends. -/
inductive Instruction where
  | register (selectable : Nat)
  | ensure
  | claim (worker : Nat)
  | spawn (worker : Nat)
  | countStarted
  | request (change : Change)
  | glance
  | wake
  | lock
  | announce
  | seeRegistrations
  | seeChanges
  | poll (waits : Bool)
  | unblock
  | dispatch (report : Readiness)
  | tickAll
  | call (selectable token : Nat) (callback : Callback)
  | panic
  | guarded
  | attach
  | enroll (selectable token : Nat)
  | insert (token : Nat) (connection : Connection)
  | drain
  | applyAll
  | apply (token : Nat) (fate : Fate)
  | publish
  | decide
  | vacate
  | inspect
  | regain
  | retire
  deriving DecidableEq

namespace Instruction

def ofCall : Call → Instruction
  | .register selectable => .register selectable
  | .change change => .request change

def unwind (rest : List Instruction) : List Instruction := rest.dropWhile (· != .guarded)

end Instruction

/-- The tokens of a table in the order in which it is gone through. -/
def arranged (order tokens : List Nat) : List Nat :=
  (order.filter tokens.contains).eraseDups ++ tokens.filter fun token => !order.contains token

def workerThread (worker : Nat) : Thread Own Instruction := ⟨{ worker }, [.lock, .announce]⟩

section
variable (s : State) (own : Own) (rest : List Instruction)

def goOn (todo : List Instruction) (events : List Event := []) :
    Option (Effect State Own Instruction Event) :=
  some { shared := s, thread := ⟨own, todo ++ rest⟩, events }

/-- The thread panics; outside of a call that ends it, and it lets go of the poller. -/
def raise (me : Nat) : Option (Effect State Own Instruction Event) :=
  match Instruction.unwind rest with
  | [] =>
    let holder := if s.holder = some me then none else s.holder
    some { shared := { s with holder }, thread := ⟨own, []⟩ }
  | rest => some { shared := s, thread := ⟨own, rest⟩ }

/-- The worker has a registration watched for what it wants, or drops it. -/
def performEnroll (world : World) (me selectable token : Nat) :
    Option (Effect State Own Instruction Event) :=
  let enrolled (s : State) (interest : Option Interest) :=
    goOn s own rest [.call selectable token .registered, .insert token ⟨selectable, interest⟩]
      [.attached selectable token]
  match world.interest with
  | none => raise s own rest me
  | some none => enrolled s none
  | some (some interest) =>
    match s.poller.register? world.descriptor token interest with
    | some poller => enrolled { s with poller } (some interest)
    | none => goOn s own rest [] [.refused selectable token]

def performApply (world : World) (token : Nat) (fate : Fate) :
    Option (Effect State Own Instruction Event) :=
  let (result, live, poller) := applyFate world.descriptor token fate own.live s.poller
  let todo := match result, own.live.find? token with
    | .changed interest, some connection =>
      [.call connection.selectable token (.interestApplied interest)]
    | _, _ => []
  goOn { s with poller } { own with live } rest todo [.applied token result]

def performDecide : Option (Effect State Own Instruction Event) :=
  if !own.live.isEmpty || !s.registrations.isEmpty then
    goOn s { own with idle := 0 } rest [.announce]
  else
    let own := { own with idle := own.idle + 1 }
    goOn s own rest [if own.idle < s.idleIterations then .announce else .vacate]

end

def perform (world : World) (me : Nat) (s : State) (own : Own) (instruction : Instruction)
    (rest : List Instruction) : Option (Effect State Own Instruction Event) :=
  match instruction with
  | .register selectable =>
    goOn { s with registrations := s.registrations ++ [selectable] } own rest [.ensure]
  | .ensure => goOn { s with nextWorker := s.nextWorker + 1 } own rest [.claim s.nextWorker]
  | .claim worker =>
    if s.owner = noWorker then goOn { s with owner := worker } own rest [.spawn worker]
    else goOn s own rest [.glance]
  | .spawn worker =>
    some {
      shared := s
      thread := ⟨own, .countStarted :: rest⟩
      started := [workerThread worker] }
  | .countStarted => goOn { s with workersStarted := s.workersStarted + 1 } own rest []
  | .request change => goOn { s with changes := s.changes ++ [change] } own rest [.glance]
  | .glance => goOn s own rest (if s.blocked then [.wake] else [])
  | .wake => goOn { s with woken := true } own rest []
  | .lock =>
    match s.holder with
    | none => goOn { s with holder := some me } own rest []
    | some _ => none
  | .announce => goOn { s with blocked := true } own rest [.seeRegistrations]
  | .seeRegistrations =>
    goOn s own rest [if s.registrations.isEmpty then .seeChanges else .poll false]
  | .seeChanges => goOn s own rest [.poll s.changes.isEmpty]
  | .poll waits =>
    match world.polled, waits && !s.woken with
    | none, true => none
    | polled, _ =>
      let reports := polled.getD []
      goOn { s with woken := false, poller := s.poller.reported reports } own rest
        ([.unblock] ++ reports.map .dispatch ++ [.tickAll])
  | .unblock => goOn { s with blocked := false } own rest []
  | .dispatch report =>
    match own.live.find? report.token with
    | some connection =>
      goOn s own rest
        [.call connection.selectable report.token (.ready report.readable report.writable)]
    | none => goOn s own rest []
  | .tickAll =>
    let ticks := (arranged world.order (own.live.map Prod.fst)).filterMap fun token =>
      (own.live.find? token).map fun connection => .call connection.selectable token .tick
    goOn s own rest (ticks ++ [.attach])
  | .call selectable token callback =>
    let panic := if world.fault = some .panic then [.panic] else []
    goOn s own rest (world.calls.map Instruction.ofCall ++ panic ++ [.guarded])
      [.called selectable token callback]
  | .panic => raise s own rest me
  | .guarded => goOn s own rest []
  | .attach =>
    match s.registrations with
    | [] => goOn s own rest [.drain]
    | selectable :: registrations =>
      goOn { s with registrations, nextToken := s.nextToken + 1 } own rest
        [.enroll selectable s.nextToken, .attach]
  | .enroll selectable token => performEnroll s own rest world me selectable token
  | .insert token connection =>
    goOn s { own with live := own.live ++ [(token, connection)] } rest []
  | .drain =>
    match s.changes with
    | [] => goOn s own rest [.applyAll]
    | change :: changes =>
      goOn { s with changes } { own with fates := own.fates.add change } rest [.drain]
  | .applyAll =>
    let todo := (arranged world.order (own.fates.map Prod.fst)).filterMap fun token =>
      (own.fates.lookup token).map fun fate => .apply token fate
    goOn s { own with fates := [] } rest (todo ++ [.publish])
  | .apply token fate => performApply s own rest world token fate
  | .publish => goOn { s with connections := own.live.length } own rest [.decide]
  | .decide => performDecide s own rest
  | .vacate => goOn { s with owner := noWorker } own rest [.inspect]
  | .inspect => goOn s own rest [if s.registrations.isEmpty then .retire else .regain]
  | .regain =>
    if s.owner = noWorker then
      goOn { s with owner := own.worker } { own with idle := 0 } rest [.announce]
    else goOn s own rest [.retire]
  | .retire => some { shared := { s with holder := none }, thread := ⟨own, []⟩ }

def machine : Machine State Own Instruction Event World := ⟨perform⟩

def State.describe (s : State) : String :=
  "Reactor \x7b worker_running: " ++ (if s.owner = noWorker then "false" else "true") ++
    ", connections: " ++ Nat.repr s.connections ++ " \x7d"

def describeHandle (token : Nat) : String :=
  "RegistrationHandle \x7b token: Token(" ++ Nat.repr token ++ ") \x7d"

end PeerSubstrate.Reactor
