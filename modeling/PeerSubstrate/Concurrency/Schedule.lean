/-!
# Running threads to a standstill

One schedule among all: thread after thread in the order of their names, each of them until it waits
or has nothing left to do, round after round until no thread has moved. It is written for anything in
which thread `i` can or cannot `go` one step further.
-/

namespace PeerSubstrate.Concurrency.Schedule

variable {S : Type}

/-- Steps allowed to one thread in a row, and rounds allowed to all of them. -/
def patience : Nat := 1000000

/-- Lets thread `i` go on until it cannot, and tells whether anything has `moved`. -/
def exhaust (go : Nat → S → Option S) (i : Nat) : Nat → Bool → S → S × Bool
  | 0, moved, s => (s, moved)
  | steps + 1, moved, s =>
    match go i s with
    | none => (s, moved)
    | some s => exhaust go i steps true s

def round (go : Nat → S → Option S) (threads : List Nat) (s : S) : S × Bool :=
  threads.foldl (fun (s, moved) i => exhaust go i patience moved s) (s, false)

/-- Rounds until no thread moves. -/
def settle (go : Nat → S → Option S) (count : S → Nat) : Nat → S → S
  | 0, s => s
  | rounds + 1, s =>
    let (s, moved) := round go (List.range (count s)) s
    if moved then settle go count rounds s else s

end PeerSubstrate.Concurrency.Schedule
