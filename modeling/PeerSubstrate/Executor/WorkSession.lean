import PeerSubstrate.Concurrency.Schedule
import PeerSubstrate.Executor.WorkItems

/-!
# Sessions with a serialized executor

A session drives one executor from outside: its own thread submits items, another thread can be made
to stay inside of an item for a while, and a storm of threads can submit many items at once. Each
command runs the threads until they stand still.
-/

namespace PeerSubstrate.Executor.WorkItems
open PeerSubstrate.Concurrency

/-- One executor, its threads, of which the first is the session's own, and the thread that stays
inside of an item. -/
structure Session where
  system : System State Unit Instruction := ⟨{}, [⟨(), []⟩]⟩
  holder : Option Nat := none
  events : List Event := []

/-- What a session can be told to do. `hold` has another thread submit an item in which it stays until it is
released, and `storm` has threads submit empty items, all at once. -/
inductive Command where
  | submit (script : List Action)
  | hold (script : List Action)
  | release
  | storm (threads items : Nat)

/-- What a storm did: how many items have run, and how many ran at once at most. -/
structure Weather where
  executed : Nat
  mostAtOnce : Nat
  deriving DecidableEq

/-- The state of the executor after a command, and what was logged on the way. A command that made no sense is
refused and does nothing. -/
structure Report where
  log : List String
  running : Bool
  pending : Nat
  description : String
  storm : Option Weather := none
  refused : Bool := false

namespace Session

/-- Thread `i` goes one step further; the events are kept newest first. -/
def go (i : Nat) (s : Session) : Option Session :=
  (machine.step s.holder.isNone i s.system).map fun (system, events) =>
    { s with system, events := events.reverse ++ s.events }

def settle (s : Session) : Session :=
  Schedule.settle go (fun s => s.system.threads.length) Schedule.patience s

/-- Gives the session's own thread something to do. -/
def command (todo : List Instruction) (s : Session) : Session :=
  { s with system := { s.system with threads := s.system.threads.set 0 ⟨(), todo⟩ } }

def start (threads : List (List Instruction)) (s : Session) : Session :=
  { s with system := { s.system with threads := s.system.threads ++ threads.map (⟨(), ·⟩) } }

/-- What was logged, oldest first. -/
def logged (events : List Event) : List String :=
  events.filterMap fun
    | .logged text => some text
    | _ => none

/-- Counts the items that ended and the most that ran at once, over events oldest first. -/
def weather (events : List Event) : Weather :=
  let (_, most, ended) := events.foldl
    (fun (inside, most, ended) event => match event with
      | .started _ => (inside + 1, max most (inside + 1), ended)
      | .ended _ => (inside - 1, most, ended + 1)
      | _ => (inside, most, ended))
    (0, 0, 0)
  ⟨ended, most⟩

def report (s : Session) : Report where
  log := logged s.events.reverse
  running := s.system.shared.executor.active
  pending := s.system.shared.executor.queue.length
  description := s.system.shared.executor.describe

def perform (command : Command) (s : Session) : Session × Report :=
  let s := { s with events := [] }
  match command, s.holder with
  | .submit script, _ =>
    let s := (s.command [.submit script]).settle
    (s, s.report)
  | .hold script, none =>
    let s := { s.start [[.submit (.await :: script)]] with holder := some s.system.threads.length }
    let s := s.settle
    (s, s.report)
  | .release, some _ =>
    let s := settle { s with holder := none }
    (s, s.report)
  | .hold _, some _ | .release, none => (s, { s.report with refused := true })
  | .storm threads items, _ =>
    let s := (s.start (List.replicate threads (List.replicate items (.submit [])))).settle
    (s, { s.report with storm := some (weather s.events.reverse) })

end Session

end PeerSubstrate.Executor.WorkItems
