import PeerSubstrate.Reactor.Poller

/-!
# Live connections

The connections a worker serves, under their tokens, and the changes that are asked for them. Changes
that are queued together are first brought together, so that each connection undergoes one at most:
the latest interest that was asked for, unless it was to be detached, which no later wish undoes.
-/

namespace PeerSubstrate.Reactor

/-- A change that is asked for the connection under a token. -/
inductive Change where
  | interest (token : Nat) (interest : Option Interest)
  | deregister (token : Nat)
  deriving DecidableEq

inductive Fate where
  | interest (interest : Option Interest)
  | detach
  deriving DecidableEq

/-- The fate of each connection that changes were asked for. -/
abbrev Fates := List (Nat × Fate)

namespace Fates

def set (token : Nat) (fate : Fate) : Fates → Fates
  | [] => [(token, fate)]
  | (t, f) :: fates => if t = token then (t, fate) :: fates else (t, f) :: set token fate fates

/-- Adds one change to those before it. -/
def add (fates : Fates) : Change → Fates
  | .deregister token => fates.set token .detach
  | .interest token interest =>
    if fates.lookup token = some .detach then fates else fates.set token (.interest interest)

def ofChanges (changes : List Change) : Fates := changes.foldl add []

end Fates

/-- A connection that is served: whose it is, and what it is watched for. -/
structure Connection where
  selectable : Nat
  interest : Option Interest
  deriving DecidableEq

/-- Connections under their tokens. -/
abbrev Live := List (Nat × Connection)

namespace Live

def find? (live : Live) (token : Nat) : Option Connection := live.lookup token

def remove (token : Nat) (live : Live) : Live := live.filter (·.1 != token)

def setInterest (token : Nat) (interest : Option Interest) (live : Live) : Live :=
  live.map fun (t, c) => if t = token then (t, { c with interest }) else (t, c)

end Live

/-- What came of a change: there is no such connection, it was detached, its interest was changed, or the poller
refused and it is dropped. -/
inductive Applied where
  | unknown
  | detached
  | changed (interest : Option Interest)
  | dropped
  deriving DecidableEq

/-- The poller after a connection has come to be watched for something else, unless it refuses. -/
def rewatch? (descriptor : Option Nat) (token : Nat) (before after : Option Interest)
    (poller : Poller) : Option Poller :=
  match before, after with
  | none, none => some poller
  | none, some interest => poller.register? descriptor token interest
  | some _, some interest => poller.reregister? descriptor token interest
  | some _, none => poller.deregister? descriptor

/-- Lets a connection undergo its fate. `descriptor` is that of the connection. -/
def applyFate (descriptor : Option Nat) (token : Nat) (fate : Fate) (live : Live) (poller : Poller) :
    Applied × Live × Poller :=
  match live.find? token with
  | none => (.unknown, live, poller)
  | some connection =>
    match fate with
    | .detach =>
      let poller :=
        if connection.interest.isSome then (poller.deregister? descriptor).getD poller else poller
      (.detached, live.remove token, poller)
    | .interest interest =>
      match rewatch? descriptor token connection.interest interest poller with
      | some poller => (.changed interest, live.setInterest token interest, poller)
      | none => (.dropped, live.remove token, poller)

end PeerSubstrate.Reactor
