/-!
# The poller

Which descriptors are watched, for what, and under which token. A descriptor is watched at most once.
Reporting is edge-triggered: a registration is due for a report when it is made, when it is renewed,
and when something arrives, and is not reported again until then.
-/

namespace PeerSubstrate.Reactor

/-- What a connection wants to be told about. -/
inductive Interest where
  | readable
  | writable
  | both
  deriving DecidableEq

namespace Interest

def includesRead : Interest → Bool
  | .readable | .both => true
  | .writable => false

def includesWrite : Interest → Bool
  | .writable | .both => true
  | .readable => false

end Interest

/-- A descriptor that is watched; `due` if a report of its readiness is due. -/
structure Watch where
  descriptor : Nat
  token : Nat
  interest : Interest
  due : Bool := true
  deriving DecidableEq

structure Readiness where
  token : Nat
  readable : Bool
  writable : Bool
  deriving DecidableEq

/-- All descriptors that are watched, in the order in which they were registered. -/
abbrev Poller := List Watch

namespace Poller

def watches (p : Poller) (descriptor : Nat) : Bool := p.any (·.descriptor == descriptor)

/-- Watches a descriptor, unless it is not open or is watched already. -/
def register? (descriptor : Option Nat) (token : Nat) (interest : Interest) (p : Poller) :
    Option Poller :=
  match descriptor with
  | some d => if p.watches d then none else some (p ++ [{ descriptor := d, token, interest }])
  | none => none

/-- Watches a descriptor under another token or for something else, if it is watched. -/
def reregister? (descriptor : Option Nat) (token : Nat) (interest : Interest) (p : Poller) :
    Option Poller :=
  match descriptor with
  | some d =>
    if p.watches d then
      some (p.map fun w => if w.descriptor = d then { w with token, interest, due := true } else w)
    else none
  | none => none

/-- No longer watches a descriptor, if it is watched. -/
def deregister? (descriptor : Option Nat) (p : Poller) : Option Poller :=
  match descriptor with
  | some d => if p.watches d then some (p.filter (·.descriptor != d)) else none
  | none => none

def reported (reports : List Readiness) (p : Poller) : Poller :=
  p.map fun w => if reports.any (·.token == w.token) then { w with due := false } else w

/-- Something has arrived at a descriptor, which is due to be reported to whom it may concern. -/
def arrived (descriptor : Nat) (concerns : Interest → Bool) (p : Poller) : Poller :=
  p.map fun w =>
    if w.descriptor = descriptor && concerns w.interest then { w with due := true } else w

/-- The reports that are due, where `canRead` and `canWrite` tell what a descriptor is ready for. -/
def dueReports (canRead canWrite : Nat → Bool) (p : Poller) : List Readiness :=
  p.filterMap fun w =>
    let readable := w.interest.includesRead && canRead w.descriptor
    let writable := w.interest.includesWrite && canWrite w.descriptor
    if w.due && (readable || writable) then some ⟨w.token, readable, writable⟩ else none

end Poller

end PeerSubstrate.Reactor
