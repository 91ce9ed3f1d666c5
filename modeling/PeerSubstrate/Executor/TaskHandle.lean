import PeerSubstrate.Concurrency.Machine
import PeerSubstrate.Executor.TaskCell

/-!
# A task and its handle

The job of a one-off task is run, or dropped without having run, while any threads call the handle to it. A step is all
that one of them does under the lock of the cell at a time, or one access to a mark without the lock. A join takes the
result and consumes the handle, so that no call comes after it.
-/

namespace PeerSubstrate.Executor.TaskHandle
open PeerSubstrate.Concurrency

/-- What the job and the handle share, and whether the handle is still there. -/
structure Shared (α : Type) where
  cell : TaskCell α := {}
  held : Bool := true

/-- A call on the handle; a wait is for the task to finish, and not for longer than some time. -/
inductive Call where
  | cancel (mayInterrupt : Bool)
  | isDone
  | isCancelled
  | wait
  | join

/-- What a thread can be asked to do: to run the job, to drop it, or to call the handle. -/
inductive Duty where
  | run
  | drop
  | call (call : Call)

/-- What a thread has to do. After the closure has ended it looks for a cancellation, and then it stores the
result. -/
inductive Instruction (α : Type) where
  | duty (duty : Duty)
  | conclude
  | store (result : Except TaskError α)

/-- What an observer sees: the closure is called, the job is dropped while the task is pending or later, and
calls return. -/
inductive Event (α : Type) where
  | began
  | dropped (pending : Bool)
  | cancelled (effective : Bool)
  | toldDone (yes : Bool)
  | toldCancelled (yes : Bool)
  | waited (finished : Bool)
  | joined (result : Except TaskError α)

/-- What the world tells: how the closure has ended, and whether the time of a wait is over. -/
structure World (α : Type) where
  outcome : Except String α
  expired : Bool := false

variable {α : Type}

/-- The task has not begun to run, and will not be given up before it does. -/
def isPending (cell : TaskCell α) : Bool :=
  match cell.state with
  | .pending => true
  | _ => false

section
variable (s : Shared α) (rest : List (Instruction α))

def goOn (todo : List (Instruction α)) (events : List (Event α)) :
    Option (Effect (Shared α) Unit (Instruction α) (Event α)) :=
  some { shared := s, thread := ⟨(), todo ++ rest⟩, events }

/-- Calls the handle. A wait goes on until the task has finished or the time is over, a join until the task has
finished. -/
def performCall (expired : Bool) (call : Call) : Option (Effect (Shared α) Unit (Instruction α) (Event α)) :=
  match call with
  | .cancel mayInterrupt =>
    let (effective, cell) := s.cell.cancel mayInterrupt
    goOn { s with cell } rest [] [.cancelled effective]
  | .isDone => goOn s rest [] [.toldDone s.cell.isDone]
  | .isCancelled => goOn s rest [] [.toldCancelled s.cell.cancelled]
  | .wait => if s.cell.isFinished || expired then goOn s rest [] [.waited s.cell.isFinished] else none
  | .join => s.cell.join?.bind fun (result, cell) => goOn { cell, held := false } rest [] [.joined result]

end

def perform (world : World α) (_ : Nat) (s : Shared α) (_ : Unit) (instruction : Instruction α)
    (rest : List (Instruction α)) : Option (Effect (Shared α) Unit (Instruction α) (Event α)) :=
  match instruction with
  | .duty .run =>
    match s.cell.begin? with
    | some cell => goOn { s with cell } rest [.conclude] [.began]
    | none => goOn s rest [] []
  | .duty .drop => goOn { s with cell := s.cell.abandon } rest [] [.dropped (isPending s.cell)]
  | .duty (.call call) => if s.held then performCall s rest world.expired call else none
  | .conclude => goOn s rest [.store (s.cell.verdict world.outcome)] []
  | .store result => goOn { s with cell := s.cell.finish result } rest [] []

def machine : Machine (Shared α) Unit (Instruction α) (Event α) (World α) := ⟨perform⟩

/-- A new task, and threads that have these duties. -/
def initial (duties : List (List Duty)) : System (Shared α) Unit (Instruction α) :=
  ⟨{}, duties.map fun duties => ⟨(), duties.map .duty⟩⟩

end PeerSubstrate.Executor.TaskHandle
