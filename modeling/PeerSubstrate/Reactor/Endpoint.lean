import PeerSubstrate.Bencode.Dictionary
import PeerSubstrate.Reactor.Worker

/-!
# Endpoints

Connections as a session drives them: the near side of a stream whose far side the session holds. An
endpoint reads what has arrived when it is told that there is something to read, all of it or one
chunk, and notes what it is told. It is always ready to be written to.
-/

namespace PeerSubstrate.Reactor
open PeerSubstrate.Bencode

/-- What can be done with endpoints, which go by their ids. An interest is asked for by the newest handle; from
`break` on the endpoint gives a descriptor that is not open; `handle` shows the newest handle. -/
inductive Act where
  | register (id : String)
  | interest (id : String) (interest : Option Interest)
  | deregister (id : String)
  | break (id : String)
  | handle (id : String)
  deriving DecidableEq

structure Faults where
  registered : Option Fault := none
  ready : Option Fault := none
  tick : Option Fault := none
  applied : Option Fault := none
  deriving DecidableEq

/-- What an endpoint has noted since it was last asked. -/
structure Notes where
  received : Bytes := []
  readable : Bool := false
  writable : Bool := false
  eof : Bool := false
  applied : List (Option Interest) := []
  deriving DecidableEq

/-- An endpoint: how it was set up, what has arrived and not been read, whether the far side is open, the token
of its newest handle, and its notes. It is `sound` while its descriptor is open as far as the reactor can see. -/
structure Endpoint where
  id : String
  interest : Option Interest
  chunk : Option Nat := none
  sound : Bool := true
  faults : Faults := {}
  onRegistered : List Act := []
  unread : Bytes := []
  farOpen : Bool := true
  token : Option Nat := none
  notes : Notes := {}
  deriving DecidableEq

namespace Endpoint

/-- A read would give something, be it only the end of the stream. -/
def canRead (e : Endpoint) : Bool := !e.unread.isEmpty || !e.farOpen

/-- Reads all there is, or one chunk. The end of the stream is seen only by a read that finds nothing
else. -/
def read (e : Endpoint) : Endpoint :=
  match e.chunk with
  | none =>
    { e with
      unread := []
      notes := { e.notes with
        received := e.notes.received ++ e.unread
        eof := e.notes.eof || !e.farOpen } }
  | some size =>
    { e with
      unread := e.unread.drop size
      notes := { e.notes with
        received := e.notes.received ++ e.unread.take size
        eof := e.notes.eof || (e.unread.isEmpty && !e.farOpen) } }

def faultOf (callback : Callback) (e : Endpoint) : Option Fault :=
  match callback with
  | .registered => e.faults.registered
  | .ready .. => e.faults.ready
  | .tick => e.faults.tick
  | .interestApplied _ => e.faults.applied

def note (token : Nat) (callback : Callback) (e : Endpoint) : Endpoint :=
  match callback with
  | .registered => { e with token := some token }
  | .ready readable writable =>
    let e := { e with
      notes := { e.notes with
        readable := e.notes.readable || readable
        writable := e.notes.writable || writable } }
    if readable then e.read else e
  | .tick => e
  | .interestApplied interest =>
    { e with notes := { e.notes with applied := e.notes.applied ++ [interest] } }

end Endpoint

end PeerSubstrate.Reactor
