import PeerSubstrate.Time.Instant

/-!
# The scheduled queue

Entries in the order in which they are due; entries with one deadline keep the order of their sequence
numbers. The queue is under one lock together with the mark of shutdown: nothing is queued after the
mark is set, and setting it empties the queue.
-/

namespace PeerSubstrate.Executor.Scheduled
open PeerSubstrate.Time

/-- A task that is due at `deadline`. -/
structure Entry (α : Type) where
  deadline : Instant
  seq : Nat
  task : α

/-- Due first: an earlier deadline, or the same one and a smaller sequence number. -/
def Entry.before {α : Type} (a b : Entry α) : Bool :=
  a.deadline < b.deadline || (a.deadline == b.deadline && a.seq < b.seq)

/-- The entries, next one first, the mark of shutdown, and the next sequence number. It stands for a counter of
64 bits: fewer than 2^64 numbers are drawn. -/
structure Shared (α : Type) where
  queue : List (Entry α) := []
  stopped : Bool := false
  nextSeq : Nat := 0

/-- What a worker finds when it looks for work: that it is to stop, that nothing is due yet, or an entry that is
due and is the worker's from now on. -/
inductive Taken (α : Type) where
  | stop
  | wait
  | due (entry : Entry α) (rest : Shared α)

namespace Shared

variable {α : Type}

/-- Puts an entry in its place, behind those that are due no later. -/
def place (entry : Entry α) : List (Entry α) → List (Entry α)
  | [] => [entry]
  | e :: queue => if entry.before e then entry :: e :: queue else e :: place entry queue

/-- Queues an entry, unless the pool is shut down. -/
def push? (entry : Entry α) (s : Shared α) : Option (Shared α) :=
  if s.stopped then none else some { s with queue := place entry s.queue }

/-- Looks for an entry that is due at `now`. -/
def take (now : Instant) (s : Shared α) : Taken α :=
  if s.stopped then .stop
  else match s.queue with
    | [] => .wait
    | entry :: queue => if entry.deadline ≤ now then .due entry { s with queue } else .wait

/-- Sets the mark and takes all entries out. -/
def stop (s : Shared α) : List (Entry α) × Shared α := (s.queue, { s with queue := [], stopped := true })

def draw (s : Shared α) : Nat × Shared α := (s.nextSeq, { s with nextSeq := s.nextSeq + 1 })

end Shared

end PeerSubstrate.Executor.Scheduled
