import PeerSubstrate.Concurrency.Machine
import PeerSubstrate.Executor.Immediate
import PeerSubstrate.Executor.Scheduled
import PeerSubstrate.Executor.Serialized
import PeerSubstrate.Executor.TaskCell

/-!
# The scheduling pool

Two pools behind one interface: short tasks go to the immediate pool; delayed, repeating and long
running ones to the scheduled pool, which has a fixed number of threads of its own. One-off tasks with
a deadline reach the scheduled queue through a serialized executor, so that at most one submitter at a
time works on the queue.

Tasks are scripts. They are numbered in the order of their submission; a one-off task shares a cell
with its handle, a repeating one its marks. A thread that runs a task with a handle publishes the
task's interrupt mark, and takes it back when the task has ended, whichever way it ended.

What a panic carries has no destructor that panics: it is dropped where nothing catches a second panic.
-/

namespace PeerSubstrate.Executor.Pool
open PeerSubstrate.Time PeerSubstrate.Concurrency

/-- How often a repeating task is due: again `period` after its previous deadline, or again `delay` after its
previous run ended. -/
inductive Repeat where
  | fixedRate (period : Duration)
  | fixedDelay (delay : Duration)
  deriving DecidableEq

/-- The ways to submit a task: to the immediate pool, without a handle or with one, or to the scheduled pool, as
soon as a thread is free, after a delay, at an instant, or after a delay and again and again. -/
inductive Channel where
  | detached
  | immediate
  | dedicated
  | after (delay : Duration)
  | atInstant (deadline : Instant)
  | repeating (initial : Duration) (schedule : Repeat)
  deriving DecidableEq

/-- What a task does, one thing after another. It logs a text, the name of its thread, or whether it has been
interrupted; it sets the value that it is going to return; it ends in a panic, with a message or with something
else; it cancels a task by the handle that goes by `id`, and logs whether that had an effect; it shuts the pool
down; it submits a task; it stands still until a gate is open. A repeating task has a script for every run, of
which the last one is used for all later runs. -/
inductive Action where
  | log (text : String)
  | nameThread
  | reportInterrupt
  | result (value : Int64)
  | panic (message : Option String)
  | cancel (id : String) (mayInterrupt : Bool)
  | shutdown
  | submit (channel : Channel) (id : String) (scripts : List (List Action))
  | gate (name : String)

abbrev Script := List Action

structure Job where
  task : Nat
  script : Script

/-- A repeating task in a queue. -/
structure Periodic where
  task : Nat
  schedule : Repeat
  scripts : List Script

inductive Work where
  | once (job : Job)
  | periodic (periodic : Periodic)

/-- A task in the scheduled queue, with its place in it. -/
abbrev Entry := Scheduled.Entry Work

inductive Record where
  | detached
  | oneOff (cell : TaskCell Int64)
  | periodic (state : PeriodicState)

/-- The state that all threads share: the two pools and the way into the second, the scheduled threads
that nobody has waited for and those that have ended, the tasks, and the handles by name. -/
structure State where
  name : String
  immediate : Immediate.Shared Job
  funnel : Serialized.Shared Entry := {}
  scheduled : Scheduled.Shared Work := {}
  workers : List Nat := []
  exited : List Nat := []
  records : List Record := []
  handles : List (String × Nat) := []

/-- What only the thread sees: its name, the task whose interrupt mark it has published, and how the
task it runs is going to end. -/
structure Own where
  name : String
  interrupt : Option Nat := none
  outcome : Except String Int64 := .ok 0

/-- What an observer sees. A cancellation takes effect, sets the interrupt mark of its task, and returns; one
without effect returns as well. The immediate queue takes a job in or refuses it. A worker takes a job off the
immediate queue (`taken`) or an entry off the scheduled one (`dequeued`). A script begins, and comes to its end
or to a panic. A run of a repeating task is over at `now`, and its next one is due at `deadline` (`renewed`). -/
inductive Event where
  | logged (text : String)
  | cancelled (task : Nat) (mayInterrupt : Bool)
  | interrupted (task : Nat)
  | cancelReturned (task : Nat) (effective : Bool)
  | accepted (task : Nat)
  | rejected (task : Nat)
  | taken (task : Nat)
  | dequeued (task : Nat) (deadline : Instant) (seq : Nat) (now : Instant)
  | began (task : Nat)
  | ended (task : Nat) (atItsEnd : Bool)
  | renewed (task : Nat) (now deadline : Instant)
  deriving DecidableEq

/-- What the world tells: the time, whether the time is over for which idle workers are kept alive,
and which gates are open. -/
structure World where
  now : Instant
  expired : Bool := false
  opened : List String := []

/-- What a thread has to do.

A submitted task goes to the immediate pool, or else draws a sequence number and is queued, by way of the funnel
or straight. One that will never run, or never again, is given up (`abandon`), and a job that has not run is let
go (`drop`). A script is done action by action; at its end, where a panic leads as well, it is `caught`. Before
and after it the interrupt mark of its task, or that of none, is published. The thread then looks for a
cancellation (`conclude`) and stores the result.

A scheduled worker looks for work. An entry of a repeating task is run, if that has not ended (`fire`); the run
is counted, or the task ends after a panic; the worker looks whether the task has ended meanwhile (`recheck`),
and queues it for its next run. A cancellation that ends a repeating task marks it as cancelled, interrupts it,
and returns; a script logs the answer. To shut the pool down a thread closes its two halves, gives up what is
queued, takes charge of the scheduled threads (`collect`) and waits for each of them. -/
inductive Instruction where
  | submit (channel : Channel) (id : String) (scripts : List Script)
  | draw (deadline : Instant) (work : Work) (funnelled : Bool)
  | funnel (step : Serialized.Step Entry)
  | push (entry : Entry)
  | abandon (work : Work)
  | drop (job : Job)
  | immediate (step : Immediate.Step Job)
  | run (job : Job)
  | act (action : Action)
  | caught (task : Nat)
  | publish (task : Option Nat)
  | conclude (task : Nat)
  | store (task : Nat) (result : Except TaskError Int64)
  | take
  | fire (entry : Scheduled.Entry Periodic)
  | count (entry : Scheduled.Entry Periodic)
  | recheck (entry : Scheduled.Entry Periodic)
  | renew (entry : Scheduled.Entry Periodic)
  | cancel (task : Nat) (mayInterrupt logged : Bool)
  | markCancelled (task : Nat)
  | markInterrupt (task : Nat)
  | answer (task : Nat) (effective logged : Bool)
  | closeImmediate
  | closeScheduled
  | collect
  | join (thread : Nat)
  | exit

namespace Instruction

/-- Where a panic stops: at the end of a script, or at the end of the thread. -/
def stopsPanic : Instruction → Bool
  | .caught _ | .exit => true
  | _ => false

/-- What is left to do after a panic. -/
def unwind (rest : List Instruction) : List Instruction := rest.dropWhile fun i => !i.stopsPanic

/-- Runs a script under the interrupt mark of its task, and brings `previous` back afterwards. -/
def guarded (task : Nat) (script : Script) (previous : Option Nat) : List Instruction :=
  [.publish (some task)] ++ script.map .act ++ [.caught task, .publish previous]

def ofFunnel : Serialized.Next Entry → Instruction
  | .go step => .funnel step
  | .work entry => .push entry

/-- What follows a step of the immediate pool; new threads are started elsewhere. -/
def ofImmediate : Immediate.Next Job → List Instruction
  | .go step => [.immediate step]
  | .run job => [.run job]
  | .reject job => [.drop job]
  | .start _ => []

end Instruction

namespace State

def cell? (task : Nat) (s : State) : Option (TaskCell Int64) :=
  match s.records[task]? with
  | some (.oneOff cell) => some cell
  | _ => none

def periodic? (task : Nat) (s : State) : Option PeriodicState :=
  match s.records[task]? with
  | some (.periodic state) => some state
  | _ => none

def setCell (task : Nat) (cell : TaskCell Int64) (s : State) : State :=
  { s with records := s.records.set task (.oneOff cell) }

def modifyPeriodic (task : Nat) (f : PeriodicState → PeriodicState) (s : State) : State :=
  match s.periodic? task with
  | some state => { s with records := s.records.set task (.periodic (f state)) }
  | none => s

/-- Adds a task, which gets the next number. -/
def add (record : Record) (s : State) : State := { s with records := s.records ++ [record] }

/-- Names the handle to a task; a name refers to the newest handle. -/
def nameHandle (id : String) (task : Nat) (s : State) : State :=
  { s with handles := (id, task) :: s.handles }

def handle? (id : String) (s : State) : Option Nat := s.handles.lookup id

def interrupted (task : Nat) (s : State) : Bool :=
  match s.records[task]? with
  | some (.oneOff cell) => cell.interrupt
  | some (.periodic state) => state.interrupt
  | _ => false

def submitOnce (id : String) (s : State) : State :=
  (s.add (.oneOff {})).nameHandle id s.records.length

end State

def workerName (pool : String) (number : Nat) : String := pool ++ "-" ++ Nat.repr number

def scheduledName (pool : String) (number : Nat) : String := pool ++ "-scheduled-" ++ Nat.repr number

def panicMessage (message : Option String) : String := message.getD "unknown panic"

def workerThread (pool : String) (number : Nat) : Thread Own Instruction :=
  ⟨{ name := workerName pool number }, [.immediate .park]⟩

/-- When a repeating task is due next, after a run that ended at `now`. -/
def nextDeadline (schedule : Repeat) (deadline now : Instant) : Option Instant :=
  match schedule with
  | .fixedRate period => deadline.after? period
  | .fixedDelay delay => now.after? delay

def answerLine (name : String) (answer : Bool) : String :=
  name ++ "=" ++ (if answer then "true" else "false")

/-- The scripts of a repeating task after one run. -/
def laterScripts : List Script → List Script
  | _ :: next :: later => next :: later
  | scripts => scripts

section
variable (s : State) (own : Own) (rest : List Instruction)

/-- The thread goes on with `todo`, and then with what it had before. -/
def goOn (todo : List Instruction) (events : List Event := []) :
    Option (Effect State Own Instruction Event) :=
  some { shared := s, thread := ⟨own, todo ++ rest⟩, events }

/-- The thread panics. -/
def raise (message : String) : Option (Effect State Own Instruction Event) :=
  some { shared := s, thread := ⟨{ own with outcome := .error message }, Instruction.unwind rest⟩ }

def performSubmit (now : Instant) (channel : Channel) (id : String) (scripts : List Script) :
    Option (Effect State Own Instruction Event) :=
  let task := s.records.length
  let job : Job := ⟨task, scripts.headD []⟩
  match channel with
  | .detached => goOn (s.add .detached) own rest [.immediate (.send job)]
  | .immediate => goOn (s.submitOnce id) own rest [.immediate (.send job)]
  | .dedicated => goOn (s.submitOnce id) own rest [.draw now (.once job) false]
  | .after delay =>
    match now.after? delay with
    | some deadline => goOn (s.submitOnce id) own rest [.draw deadline (.once job) true]
    | none => raise s own rest Instant.overflowMessage
  | .atInstant deadline => goOn (s.submitOnce id) own rest [.draw deadline (.once job) true]
  | .repeating initial schedule =>
    match now.after? initial with
    | some deadline =>
      goOn ((s.add (.periodic {})).nameHandle id task) own rest
        [.draw deadline (.periodic ⟨task, schedule, scripts⟩) false]
    | none => raise s own rest Instant.overflowMessage

def performAction (world : World) (action : Action) : Option (Effect State Own Instruction Event) :=
  match action with
  | .log text => goOn s own rest [] [.logged text]
  | .nameThread => goOn s own rest [] [.logged own.name]
  | .reportInterrupt =>
    let interrupted := (own.interrupt.map s.interrupted).getD false
    goOn s own rest [] [.logged (answerLine "interrupted" interrupted)]
  | .result value => goOn s { own with outcome := .ok value } rest []
  | .panic message => raise s own rest (panicMessage message)
  | .cancel id mayInterrupt =>
    match s.handle? id with
    | some task => goOn s own rest [.cancel task mayInterrupt true]
    | none => goOn s own rest [] [.logged (answerLine "cancel" false)]
  | .shutdown => goOn s own rest [.closeImmediate, .closeScheduled]
  | .submit channel id scripts => goOn s own rest [.submit channel id scripts]
  | .gate name => if world.opened.contains name then goOn s own rest [] else none

/-- Runs a job, or lets it be if it was cancelled before. -/
def performRun (job : Job) : Option (Effect State Own Instruction Event) :=
  let own' := { own with outcome := .ok 0 }
  match s.records[job.task]? with
  | some (.oneOff cell) =>
    match cell.begin? with
    | some cell =>
      goOn (s.setCell job.task cell) own' rest
        (Instruction.guarded job.task job.script own.interrupt ++ [.conclude job.task])
        [.began job.task]
    | none => goOn s own rest []
  | _ => goOn s own' rest (job.script.map .act ++ [.caught job.task]) [.began job.task]

def performCancel (task : Nat) (mayInterrupt logged : Bool) :
    Option (Effect State Own Instruction Event) :=
  match s.records[task]? with
  | some (.oneOff cell) =>
    let (effective, after) := cell.cancel mayInterrupt
    goOn (s.setCell task after) own rest [.answer task effective logged]
      ((if effective then [.cancelled task mayInterrupt] else []) ++
        if after.interrupt && !cell.interrupt then [.interrupted task] else [])
  | some (.periodic state) =>
    if state.done then goOn s own rest [.answer task false logged]
    else
      goOn (s.modifyPeriodic task ({ · with done := true })) own rest
        ([.markCancelled task] ++ (if mayInterrupt then [.markInterrupt task] else []) ++
          [.answer task true logged])
        [.cancelled task mayInterrupt]
  | _ => goOn s own rest [.answer task false logged]

def performTake (now : Instant) : Option (Effect State Own Instruction Event) :=
  match s.scheduled.take now with
  | .stop => goOn s own rest []
  | .wait => none
  | .due entry scheduled =>
    let s := { s with scheduled }
    match entry.task with
    | .once job =>
      goOn s own rest [.run job, .take] [.dequeued job.task entry.deadline entry.seq now]
    | .periodic periodic =>
      goOn s own rest [.fire { entry with task := periodic }, .take]
        [.dequeued periodic.task entry.deadline entry.seq now]

end

def perform (world : World) (me : Nat) (s : State) (own : Own) (instruction : Instruction)
    (rest : List Instruction) : Option (Effect State Own Instruction Event) :=
  match instruction with
  | .submit channel id scripts => performSubmit s own rest world.now channel id scripts
  | .draw deadline work funnelled =>
    let (seq, scheduled) := s.scheduled.draw
    let entry : Entry := ⟨deadline, seq, work⟩
    goOn { s with scheduled } own rest
      [if funnelled then .funnel (.acquire entry) else .push entry]
  | .funnel step =>
    let (funnel, next) := s.funnel.perform step
    goOn { s with funnel } own rest (next.map Instruction.ofFunnel)
  | .push entry =>
    match s.scheduled.push? entry with
    | some scheduled => goOn { s with scheduled } own rest []
    | none => goOn s own rest [.abandon entry.task]
  | .abandon (.once job) => goOn s own rest [.drop job]
  | .abandon (.periodic periodic) =>
    goOn (s.modifyPeriodic periodic.task ({ · with done := true })) own rest []
  | .drop job =>
    match s.cell? job.task with
    | some cell => goOn (s.setCell job.task cell.abandon) own rest []
    | none => goOn s own rest []
  | .immediate step =>
    (s.immediate.perform world.expired step).map fun (immediate, next) =>
      { shared := { s with immediate }
        thread := ⟨own, next.flatMap Instruction.ofImmediate ++ rest⟩
        started := next.filterMap fun
          | .start number => some (workerThread s.name number)
          | _ => none
        events := next.filterMap fun
          | .go .countThreads => match step with
            | .send job => some (.accepted job.task)
            | _ => none
          | .go (.unpark (.job job)) => some (.taken job.task)
          | .reject job => some (.rejected job.task)
          | _ => none }
  | .run job => performRun s own rest job
  | .act action => performAction s own rest world action
  | .caught task => goOn s own rest [] [.ended task own.outcome.toBool]
  | .publish task => goOn s { own with interrupt := task } rest []
  | .conclude task =>
    match s.cell? task with
    | some cell => goOn s own rest [.store task (cell.verdict own.outcome)]
    | none => goOn s own rest []
  | .store task result =>
    match s.cell? task with
    | some cell => goOn (s.setCell task (cell.finish result)) own rest []
    | none => goOn s own rest []
  | .take => performTake s own rest world.now
  | .fire entry =>
    let task := entry.task.task
    if (s.periodic? task).any (·.done) then goOn s own rest []
    else
      goOn s { own with outcome := .ok 0 } rest
        (Instruction.guarded task (entry.task.scripts.headD []) own.interrupt ++ [.count entry])
        [.began task]
  | .count entry =>
    let task := entry.task.task
    match own.outcome with
    | .error _ => goOn (s.modifyPeriodic task ({ · with done := true })) own rest []
    | .ok _ =>
      goOn (s.modifyPeriodic task fun p => { p with runs := p.runs + 1 }) own rest [.recheck entry]
  | .recheck entry =>
    if (s.periodic? entry.task.task).any (·.done) then goOn s own rest []
    else goOn s own rest [.renew entry]
  | .renew entry =>
    match nextDeadline entry.task.schedule entry.deadline world.now with
    | some deadline =>
      let periodic := { entry.task with scripts := laterScripts entry.task.scripts }
      goOn s own rest [.push ⟨deadline, entry.seq, .periodic periodic⟩]
        [.renewed entry.task.task world.now deadline]
    | none => raise s own rest Instant.overflowMessage
  | .cancel task mayInterrupt logged => performCancel s own rest task mayInterrupt logged
  | .markCancelled task => goOn (s.modifyPeriodic task ({ · with cancelled := true })) own rest []
  | .markInterrupt task =>
    goOn (s.modifyPeriodic task ({ · with interrupt := true })) own rest [] [.interrupted task]
  | .answer task effective logged =>
    goOn s own rest []
      ([.cancelReturned task effective] ++
        if logged then [.logged (answerLine "cancel" effective)] else [])
  | .closeImmediate => goOn { s with immediate := s.immediate.close } own rest []
  | .closeScheduled =>
    let (entries, scheduled) := s.scheduled.stop
    goOn { s with scheduled } own rest (entries.map (fun entry => .abandon entry.task) ++ [.collect])
  | .collect =>
    goOn { s with workers := [] } own rest ((s.workers.filter (· != me)).map .join)
  | .join thread => if s.exited.contains thread then goOn s own rest [] else none
  | .exit => goOn { s with exited := me :: s.exited } own rest []

def machine : Machine State Own Instruction Event World := ⟨perform⟩

/-- Immediate workers a pool may have, unless it is told otherwise, by the number that stays. -/
def defaultMax (core : Nat) : Nat := 2 * core

structure Config where
  core : Nat
  max : Nat := defaultMax core
  scheduled : Nat := 2
  keepAlive : Duration := 60 * Duration.second
  name : String := "mainline-pool"

/-- A pool nobody has submitted to: a thread of its owner's, and the scheduled threads. -/
def initial (config : Config) : System State Own Instruction :=
  let count := Nat.max config.scheduled 1
  { shared := {
      name := config.name
      immediate := .ofLimits config.core config.max
      workers := (List.range count).map (· + 1) }
    threads := ⟨{ name := "" }, []⟩ ::
      (List.range count).map fun i => ⟨{ name := scheduledName config.name i }, [.take, .exit]⟩ }

end PeerSubstrate.Executor.Pool
