import PeerSubstrate.Concurrency.Schedule
import PeerSubstrate.Executor.Pool

/-!
# Sessions with a scheduling pool

A session drives one pool from outside and waits after every command until the pool stands still. Its
clock moves on by a nanosecond with every step, so that whatever is submitted "now" is due after all
that was due before, and jumps ahead to the next deadline when all there is to do is to wait for it,
unless that deadline lies beyond the horizon.
-/

namespace PeerSubstrate.Executor.Pool
open PeerSubstrate.Time PeerSubstrate.Concurrency

/-- A pool, its threads, of which the first is the session's own, the time since the pool was made,
the gates that are open, and what has been seen since the last command, newest first. -/
structure Session where
  config : Config
  system : System State Own Instruction
  now : Instant := 0
  opened : List String := []
  events : List Event := []

/-- What a session can be told to do. A gate is opened for good; `waitThreads` waits for idle workers to leave
until there are so many; `shutdown` opens the gates as well at which scheduled tasks stand. -/
inductive Command where
  | submit (channel : Channel) (id : String) (scripts : List Script)
  | openGate (name : String)
  | cancel (id : String) (mayInterrupt : Bool)
  | status (id : String)
  | join (id : String)
  | threads
  | waitThreads (count : Nat)
  | shutdown

inductive Answer where
  | nothing
  | cancelled (effective : Bool)
  | oneOff (done finished cancelled : Bool) (description : String)
  | periodic (done cancelled : Bool) (runs : Nat)
  | value (value : Int64)
  | failed (error : TaskError)
  | wouldBlock
  | noHandle
  | threads (count : Nat)
  | reached (yes : Bool)

/-- An answer, what was logged on the way, and the length of the scheduled queue. -/
structure Report where
  answer : Answer
  log : List String
  scheduled : Nat

/-- Deadlines this far ahead, or further, are never waited for. -/
def horizon : Duration := Duration.ofMillis 500000

/-- Idle workers that are kept alive longer than this are never waited for. -/
def longestWait : Duration := 5 * Duration.second

namespace Session

def ofConfig (config : Config) : Session := { config, system := initial config }

def state (s : Session) : State := s.system.shared

/-- Thread `i` goes one step further, while the clock moves on; `expired` ends its wait for a job. -/
def advance (expired : Bool) (i : Nat) (s : Session) : Option Session :=
  let now := s.now + 1
  (machine.step { now, expired, opened := s.opened } i s.system).map fun (system, events) =>
    { s with system, now, events := events.reverse ++ s.events }

def runThreads (s : Session) : Session :=
  Schedule.settle (advance false) (fun s => s.system.threads.length) Schedule.patience s

def standsAt (i : Nat) (s : Session) : Option Instruction := s.system.threads[i]?.bind (·.todo.head?)

/-- Some scheduled thread has nothing to do. -/
def hasFreeThread (s : Session) : Bool :=
  s.system.threads.any fun thread => match thread.todo with
    | .take :: _ => true
    | _ => false

/-- The next deadline, if there is a thread that waits for it and it is not too far ahead. -/
def nextDeadline? (s : Session) : Option Instant :=
  match s.state.scheduled.queue with
  | entry :: _ =>
    if s.hasFreeThread && s.now < entry.deadline && entry.deadline < s.now + horizon then
      some entry.deadline
    else none
  | [] => none

/-- Runs the pool until there is nothing left to do or to wait for. -/
def settleWithin : Nat → Session → Session
  | 0, s => s
  | rounds + 1, s =>
    let s := s.runThreads
    match s.nextDeadline? with
    | some deadline => settleWithin rounds { s with now := deadline }
    | none => s

def settle (s : Session) : Session := settleWithin Schedule.patience s

/-- Gives the session's own thread something to do, and runs the pool. -/
def call (todo : List Instruction) (s : Session) : Session :=
  let threads := s.system.threads.set 0 ⟨{ name := "" }, todo⟩
  settle { s with system := { s.system with threads } }

/-- The gates at which scheduled threads stand. -/
def scheduledGates (s : Session) : List String :=
  (List.range (Nat.max s.config.scheduled 1)).filterMap fun i =>
    match s.standsAt (i + 1) with
    | some (.act (.gate name)) => some name
    | _ => none

/-- Opens the gates at which scheduled threads stand, until thread `i` has nothing left to do. -/
def openUntilDone (i : Nat) : Nat → Session → Session
  | 0, s => s
  | rounds + 1, s =>
    match s.standsAt i, s.scheduledGates with
    | none, _ | _, [] => s
    | some _, gates => openUntilDone i rounds (settle { s with opened := gates ++ s.opened })

/-- Another thread shuts the pool down. -/
def shutDown (s : Session) : Session :=
  let i := s.system.threads.length
  let threads := s.system.threads ++ [⟨{ name := "" }, [.closeImmediate, .closeScheduled]⟩]
  openUntilDone i Schedule.patience (settle { s with system := { s.system with threads } })

/-- The first idle worker that is not needed any more has waited long enough. -/
def expireOne (s : Session) : Option Session :=
  (List.range s.system.threads.length).findSome? fun i =>
    match s.standsAt i with
    | some (.immediate (.receive true)) => s.advance true i
    | _ => none

/-- Lets idle workers leave until there are `count` of them. -/
def awaitThreads (count : Nat) : Nat → Session → Session
  | 0, s => s
  | rounds + 1, s =>
    if s.state.immediate.threads = count then s
    else match s.expireOne with
      | some s => awaitThreads count rounds s.settle
      | none => s

def logged (s : Session) : List String :=
  s.events.reverse.filterMap fun
    | .logged text => some text
    | _ => none

/-- Whether the cancellation that was asked for had an effect. The session's own thread goes first, so
its cancellation is the first one to return. -/
def cancelResult (s : Session) : Bool :=
  (s.events.reverse.findSome? fun
    | .cancelReturned _ effective => some effective
    | _ => none).getD false

def status (id : String) (s : Session) : Answer :=
  match (s.state.handle? id).bind (s.state.records[·]?) with
  | some (.oneOff cell) =>
    match cell.state with
    | .taken => .noHandle
    | _ => .oneOff cell.isDone cell.isFinished cell.cancelled cell.describe
  | some (.periodic state) => .periodic state.done state.cancelled state.runs
  | _ => .noHandle

/-- Takes the result of a task, if it is finished. -/
def join (id : String) (s : Session) : Answer × Session :=
  match s.state.handle? id with
  | none => (.noHandle, s)
  | some task =>
    match s.state.cell? task with
    | none => (.noHandle, s)
    | some cell =>
      match cell.state, cell.join? with
      | .taken, _ => (.noHandle, s)
      | _, none => (.wouldBlock, s)
      | _, some (result, cell) =>
        let s := { s with system := { s.system with shared := s.state.setCell task cell } }
        match result with
        | .ok value => (.value value, s)
        | .error error => (.failed error, s)

def execute (command : Command) (s : Session) : Answer × Session :=
  match command with
  | .submit channel id scripts => (.nothing, s.call [.submit channel id scripts])
  | .openGate name => (.nothing, settle { s with opened := name :: s.opened })
  | .cancel id mayInterrupt =>
    match s.state.handle? id with
    | none => (.noHandle, s)
    | some task =>
      let s := s.call [.cancel task mayInterrupt false]
      (.cancelled s.cancelResult, s)
  | .status id => (s.status id, s)
  | .join id => s.join id
  | .threads => (.threads s.state.immediate.threads, s)
  | .waitThreads count =>
    let s := if s.config.keepAlive ≤ longestWait then s.awaitThreads count Schedule.patience else s
    (.reached (s.state.immediate.threads = count), s)
  | .shutdown => (.nothing, s.shutDown)

/-- Performs a command and reports what came of it. -/
def perform (command : Command) (s : Session) : Session × Report :=
  let (answer, s) := execute command { s with events := [] }
  (s, ⟨answer, s.logged, s.state.scheduled.queue.length⟩)

end Session

end PeerSubstrate.Executor.Pool
