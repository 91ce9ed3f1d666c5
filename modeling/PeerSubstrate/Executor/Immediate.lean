/-!
# The immediate pool

Workers that feed on one unbounded queue. There are `core` of them once there has been work, up to
`max` while jobs back up behind busy ones, and those beyond `core` leave after having waited in vain
for the time they are kept alive. Whether to grow is asked by a submitter after it has queued a job
and by a worker after it has taken one, so that whichever of them sees the backlog last adds a worker.

Every step is one atomic access to the queue or to one of the two counters.
-/

namespace PeerSubstrate.Executor.Immediate

/-- The queue and the counters; `threads` counts the workers that are running or about to start,
`idle` those that wait for a job. -/
structure Shared (α : Type) where
  core : Nat
  max : Nat
  accepting : Bool := true
  queue : List α := []
  threads : Nat := 0
  idle : Nat := 0

/-- How a worker's wait for a job ended; `closed` if the queue was empty and closed. -/
inductive Received (α : Type) where
  | job (job : α)
  | timedOut
  | closed

/-- The points of a submission, of growing, and of a worker's loop. Growing looks at the number of workers, at
the length of the queue and at the number of idle workers in turn, and claims the next worker's place if the
number of workers is still what it was. A worker counts itself as idle, finds out whether it is one of those
beyond `core`, and waits for a job, for a limited time only if it is. Having waited in vain it looks at the
number of workers again, and gives its place up if that has not changed in between. -/
inductive Step (α : Type) where
  | send (job : α)
  | countThreads
  | countQueue (threads : Nat)
  | countIdle (threads queued : Nat)
  | claim (threads : Nat)
  | park
  | choose
  | receive (extra : Bool)
  | unpark (received : Received α)
  | consider
  | retire (threads : Nat)
  | stop

/-- What a thread does after a step. A rejected job is handed back to its submitter, and `start` begins the
worker with this number. -/
inductive Next (α : Type) where
  | go (step : Step α)
  | run (job : α)
  | reject (job : α)
  | start (number : Nat)

namespace Shared

variable {α : Type}

/-- An idle pool of at least one worker. -/
def ofLimits (core max : Nat) : Shared α := { core := Nat.max core 1, max := Nat.max max (Nat.max core 1) }

def close (s : Shared α) : Shared α := { s with accepting := false }

/-- One atomic access, and what the thread goes on with. A worker cannot go on while it waits for a
job; `expired` says that the time it is kept alive is over. -/
def perform (expired : Bool) (s : Shared α) : Step α → Option (Shared α × List (Next α))
  | .send job =>
    if s.accepting then some ({ s with queue := s.queue ++ [job] }, [.go .countThreads])
    else some (s, [.reject job])
  | .countThreads => some (s, [.go (.countQueue s.threads)])
  | .countQueue threads => some (s, [.go (.countIdle threads s.queue.length)])
  | .countIdle threads queued =>
    if threads ≥ s.max ∨ (threads ≥ s.core ∧ queued ≤ s.idle) then some (s, [])
    else some (s, [.go (.claim threads)])
  | .claim threads =>
    if s.threads = threads then some ({ s with threads := threads + 1 }, [.start threads])
    else some (s, [.go .countThreads])
  | .park => some ({ s with idle := s.idle + 1 }, [.go .choose])
  | .choose => some (s, [.go (.receive (s.threads > s.core))])
  | .receive extra =>
    match s.queue with
    | job :: queue => some ({ s with queue }, [.go (.unpark (.job job))])
    | [] =>
      if !s.accepting then some (s, [.go (.unpark .closed)])
      else if extra && expired then some (s, [.go (.unpark .timedOut)])
      else none
  | .unpark received =>
    let s := { s with idle := s.idle - 1 }
    match received with
    | .job job => some (s, [.go .countThreads, .run job, .go .park])
    | .timedOut => some (s, [.go .consider])
    | .closed => some (s, [.go .stop])
  | .consider =>
    if s.threads > s.core then some (s, [.go (.retire s.threads)]) else some (s, [.go .park])
  | .retire threads =>
    if s.threads = threads then some ({ s with threads := threads - 1 }, [])
    else some (s, [.go .park])
  | .stop => some ({ s with threads := s.threads - 1 }, [])

end Shared

end PeerSubstrate.Executor.Immediate
