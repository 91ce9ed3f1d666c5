import PeerSubstrate.Concurrency.Machine
import PeerSubstrate.Executor.Serialized

/-!
# Work items of the serialized executor

Items as scripts: they log, submit further items, may panic at any point, and may stand still until
they are told to go on. A panic ends its own item and nothing else. Every submission draws a ticket,
by which the events of a run tell one item from another.

What a panic carries has no destructor that panics: it is dropped where nothing catches a second panic.
-/

namespace PeerSubstrate.Executor.WorkItems
open PeerSubstrate.Concurrency

/-- What an item does, one thing after another. `describe` logs the state of the executor, `submit` submits an
item from inside of this one, `panic` ends this one, and `await` stands still until the world lets it go on. -/
inductive Action where
  | log (text : String)
  | describe
  | submit (item : List Action)
  | panic (text : String)
  | await

structure Item where
  ticket : Nat
  script : List Action

inductive Event where
  | logged (text : String)
  | submitted (ticket : Nat)
  | queued (ticket : Nat)
  | started (ticket : Nat)
  | ended (ticket : Nat)
  deriving DecidableEq

/-- The executor, and the number of the next ticket. -/
structure State where
  executor : Serialized.Shared Item := {}
  nextTicket : Nat := 0

/-- What a thread has to do: call the executor with a new item, go on inside of a call, do one thing inside of
an item, and leave an item, which is where a panic leads as well. -/
inductive Instruction where
  | submit (script : List Action)
  | call (step : Serialized.Step Item)
  | act (action : Action)
  | leave (ticket : Nat)

namespace Instruction

def isLeave : Instruction → Bool
  | .leave _ => true
  | _ => false

/-- What follows a step of the executor. -/
def ofNext : Serialized.Next Item → List Instruction
  | .go step => [.call step]
  | .work item => item.script.map .act ++ [.leave item.ticket]

/-- What an observer sees of a step and of what follows it. -/
def events (step : Serialized.Step Item) (next : List (Serialized.Next Item)) : List Event :=
  (match step with
    | .enqueue item => [.queued item.ticket]
    | _ => []) ++
  next.filterMap fun
    | .work item => some (.started item.ticket)
    | .go _ => none

end Instruction

/-- The meaning of instructions; the world says whether an item that stands still may go on. -/
def machine : Machine State Unit Instruction Event Bool where
  perform released _ state own instruction rest :=
    match instruction with
    | .submit script =>
      let item : Item := ⟨state.nextTicket, script⟩
      some {
        shared := { state with nextTicket := state.nextTicket + 1 }
        thread := ⟨own, .call (.acquire item) :: rest⟩
        events := [.submitted item.ticket] }
    | .call step =>
      let (executor, next) := state.executor.perform step
      some {
        shared := { state with executor }
        thread := ⟨own, next.flatMap Instruction.ofNext ++ rest⟩
        events := Instruction.events step next }
    | .act (.log text) => some { shared := state, thread := ⟨own, rest⟩, events := [.logged text] }
    | .act .describe =>
      some { shared := state, thread := ⟨own, rest⟩, events := [.logged state.executor.describe] }
    | .act (.submit script) => some { shared := state, thread := ⟨own, .submit script :: rest⟩ }
    | .act (.panic _) =>
      some { shared := state, thread := ⟨own, rest.dropWhile fun i => !i.isLeave⟩ }
    | .act .await => if released then some { shared := state, thread := ⟨own, rest⟩ } else none
    | .leave ticket => some { shared := state, thread := ⟨own, rest⟩, events := [.ended ticket] }

end PeerSubstrate.Executor.WorkItems
