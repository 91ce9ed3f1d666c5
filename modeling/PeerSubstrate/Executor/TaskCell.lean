/-!
# Task cells

What a one-off task and the handle to it share. The task goes from pending to running to finished,
and its result is taken once. A cancellation that finds the task pending finishes it; one that finds
it running leaves a mark, which is read after the task has ended and before its result is stored.
Every function here is one step under the lock of the cell, or one atomic access to one of its marks.
-/

namespace PeerSubstrate.Executor

/-- Why a task produced no value; `shutdown` if the pool was shut down before the task ran. -/
inductive TaskError where
  | cancelled
  | panicked (message : String)
  | shutdown
  deriving DecidableEq

def TaskError.message : TaskError → String
  | .cancelled => "Task was cancelled"
  | .panicked message => "Task panicked: " ++ message
  | .shutdown => "Pool was shut down before the task ran"

/-- How far a task has come; the result of one that is `taken` has been handed out. -/
inductive TaskCell.State (α : Type) where
  | pending
  | running
  | finished (result : Except TaskError α)
  | taken

/-- The state of a task and its two marks. -/
structure TaskCell (α : Type) where
  state : TaskCell.State α := .pending
  cancelled : Bool := false
  interrupt : Bool := false

namespace TaskCell

variable {α : Type}

/-- Before the task runs: only a pending task does. -/
def begin? (c : TaskCell α) : Option (TaskCell α) :=
  match c.state with
  | .pending => some { c with state := .running }
  | _ => none

/-- After the task has ended: its outcome counts unless the cell is marked as cancelled. -/
def verdict (outcome : Except String α) (c : TaskCell α) : Except TaskError α :=
  if c.cancelled then .error .cancelled
  else match outcome with
    | .ok value => .ok value
    | .error message => .error (.panicked message)

def finish (result : Except TaskError α) (c : TaskCell α) : TaskCell α :=
  { c with state := .finished result }

/-- The task is given up without having run. -/
def abandon (c : TaskCell α) : TaskCell α :=
  match c.state with
  | .pending => c.finish (.error .shutdown)
  | _ => c

/-- Cancels the task, and tells whether it was still to be finished. -/
def cancel (mayInterrupt : Bool) (c : TaskCell α) : Bool × TaskCell α :=
  match c.state with
  | .pending => (true, { c with cancelled := true, state := .finished (.error .cancelled) })
  | .running => (true, { c with cancelled := true, interrupt := c.interrupt || mayInterrupt })
  | .finished _ | .taken => (false, c)

def isFinished (c : TaskCell α) : Bool :=
  match c.state with
  | .pending | .running => false
  | .finished _ | .taken => true

/-- The task completed, panicked or was cancelled. -/
def isDone (c : TaskCell α) : Bool := c.isFinished || c.cancelled

/-- Takes the result, if it is there. A cell whose result is gone counts as cancelled. -/
def join? (c : TaskCell α) : Option (Except TaskError α × TaskCell α) :=
  match c.state with
  | .pending | .running => none
  | .finished result => some (result, { c with state := .taken })
  | .taken => some (.error .cancelled, c)

def describe (c : TaskCell α) : String :=
  "TaskHandle \x7b done: " ++ (if c.isDone then "true" else "false") ++ ", cancelled: " ++
    (if c.cancelled then "true" else "false") ++ " \x7d"

end TaskCell

/-- What a repeating task and the handles to it share. Every field is accessed on its own. `runs` stands for a
counter of 64 bits: a task runs fewer than 2^64 times. -/
structure PeriodicState where
  cancelled : Bool := false
  done : Bool := false
  interrupt : Bool := false
  runs : Nat := 0
  deriving DecidableEq

end PeerSubstrate.Executor
