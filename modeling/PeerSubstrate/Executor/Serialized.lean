import PeerSubstrate.Concurrency.Machine

/-!
# Serialized execution

At most one thread at a time works on submitted items, and no thread is set aside for it. A submitter
that finds nobody at work takes ownership, performs its own item and then whatever has been queued;
any other submitter queues its item and leaves. Ownership is a flag: between the moment an owner gives
it up and the moment it has looked at the queue again an item may be left lying there, and so may one
that is queued between a failed attempt to take the flag and the owner's last look. Both sides
therefore look twice, the submitter by a second attempt and the owner by a glance at the queue.
-/

namespace PeerSubstrate.Executor.Serialized

/-- The ownership flag and the items that wait for the owner. -/
structure Shared (α : Type) where
  active : Bool := false
  queue : List α := []
  deriving DecidableEq

/-- The points of a submission, each one atomic access. A submitter takes ownership to perform its item at once,
or else queues it and tries to take ownership once more. An owner takes one item after another off the queue;
when there is none it gives ownership up, looks at the queue once more, and takes ownership back if something is
there and nobody else has taken it. -/
inductive Step (α : Type) where
  | acquire (item : α)
  | enqueue (item : α)
  | retry
  | receive
  | release
  | inspect
  | regain
  deriving DecidableEq

/-- What a thread does after a step: another one, or the work of an item. -/
inductive Next (α : Type) where
  | go (step : Step α)
  | work (item : α)
  deriving DecidableEq

namespace Shared

variable {α : Type}

/-- One atomic access, and what the thread goes on with. -/
def perform (s : Shared α) : Step α → Shared α × List (Next α)
  | .acquire item =>
    if s.active then (s, [.go (.enqueue item), .go .retry])
    else ({ s with active := true }, [.work item, .go .receive])
  | .enqueue item => ({ s with queue := s.queue ++ [item] }, [])
  | .retry => if s.active then (s, []) else ({ s with active := true }, [.go .receive])
  | .receive =>
    match s.queue with
    | [] => (s, [.go .release])
    | item :: queue => ({ s with queue }, [.work item, .go .receive])
  | .release => ({ s with active := false }, [.go .inspect])
  | .inspect => if s.queue.isEmpty then (s, []) else (s, [.go .regain])
  | .regain => if s.active then (s, []) else ({ s with active := true }, [.go .receive])

def describe (s : Shared α) : String :=
  "SerializedExecutor \x7b active: " ++ (if s.active then "true" else "false") ++ ", pending: " ++
    Nat.repr s.queue.length ++ " \x7d"

end Shared

end PeerSubstrate.Executor.Serialized
