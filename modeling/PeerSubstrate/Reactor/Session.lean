import PeerSubstrate.Reactor.Endpoint

/-!
# Sessions with a reactor

A session drives one reactor and a set of endpoints. Whatever it does itself is done at once; the
worker goes on only where the session waits for it, an iteration at a time.
-/

namespace PeerSubstrate.Reactor
open PeerSubstrate.Bencode PeerSubstrate.Concurrency

inductive Reply where
  | nothing
  | yesNo (answer : Bool)
  | text (text : String)
  deriving DecidableEq

/-- Acts that wait for the next tick of an endpoint. -/
structure Errand where
  selectable : Nat
  acts : List Act

/-- A reactor, its threads, of which the first is the session's own, and the endpoints, whose places in the list
are their descriptors; whether the session has let go of the reactor, and the endpoints that were `ticked` in
the present iteration. -/
structure Session where
  system : System State Own Instruction
  endpoints : List Endpoint := []
  dropped : Bool := false
  errand : Option Errand := none
  replies : List Reply := []
  ticked : List Nat := []

/-- What a session can be told to do. `tick` has acts done inside of the next tick of an endpoint. -/
inductive Command where
  | create (endpoint : Endpoint)
  | act (acts : List Act)
  | tick (on : String) (acts : List Act)
  | send (id : String) (data : Bytes)
  | hangup (id : String)
  | sync (on : String)
  | waitIdle
  | state
  | dropReactor (id : String)

structure Overview where
  connections : Nat
  running : Bool
  workers : Nat
  description : String

structure Account where
  id : String
  token : Option Nat
  notes : Notes

/-- The answer to a command: whether it succeeded, and what it was to show. -/
structure Report where
  ok : Bool := true
  replies : Option (List Reply) := none
  overview : Option Overview := none
  accounts : Option (List Account) := none
  ticking : Option (List String) := none

namespace Session

/-- Iterations that a wait may take. -/
def patience : Nat := 20000

/-- Steps that one iteration may take. -/
def longestIteration : Nat := 1000000

/-- Iterations that pass in a synchronization. -/
def syncIterations : Nat := 6

def ofIdleIterations (idleIterations : Nat) : Session :=
  { system := ⟨{ idleIterations }, [⟨{}, []⟩]⟩ }

def state (s : Session) : State := s.system.shared

/-- The place of the newest endpoint that goes by `id`. -/
def place? (id : String) (s : Session) : Option Nat :=
  (List.range s.endpoints.length).reverse.find? fun i => s.endpoints[i]?.any (·.id == id)

def modify (i : Nat) (f : Endpoint → Endpoint) (s : Session) : Session :=
  { s with endpoints := s.endpoints.modify i f }

def ask {α : Type} (i : Nat) (f : Endpoint → Option α) (s : Session) : Option α :=
  s.endpoints[i]?.bind f

/-- The places of the endpoints that still go by their ids. -/
def named (s : Session) : List Nat :=
  (List.range s.endpoints.length).filter fun i =>
    s.endpoints[i]?.any fun e => s.place? e.id == some i

/-- The threads that have something left to do, the session's own apart. -/
def workers (s : Session) : List Nat :=
  (List.range s.system.threads.length).filter fun i =>
    i != 0 && (s.system.threads[i]?.any fun thread => !thread.todo.isEmpty)

/-- Somebody still holds on to the reactor. -/
def alive (s : Session) : Bool := !s.dropped || !s.workers.isEmpty

def token? (id : String) (s : Session) : Option Nat :=
  (s.place? id).bind fun i => s.ask i Endpoint.token

/-- What an act asks of the reactor, what it replies, and what it does to the endpoints. -/
def resolve (act : Act) (s : Session) : List Call × Reply × Session :=
  let change (id : String) (f : Nat → Change) : List Call × Reply × Session :=
    match s.token? id with
    | none => ([], .nothing, s)
    | some token =>
      if s.alive then ([.change (f token)], .yesNo true, s) else ([], .yesNo false, s)
  match act with
  | .register id =>
    match s.place? id with
    | some i => if s.dropped then ([], .nothing, s) else ([.register i], .yesNo true, s)
    | none => ([], .nothing, s)
  | .interest id interest => change id fun token => .interest token interest
  | .deregister id => change id .deregister
  | .break id =>
    match s.place? id with
    | some i => ([], .nothing, s.modify i ({ · with sound := false }))
    | none => ([], .nothing, s)
  | .handle id =>
    match s.token? id with
    | some token => ([], .text (describeHandle token), s)
    | none => ([], .nothing, s)

/-- What acts ask of the reactor and what they reply, one after another. -/
def resolveAll (acts : List Act) (s : Session) : List Call × List Reply × Session :=
  acts.foldl
    (fun (calls, replies, s) act =>
      let (more, reply, s) := s.resolve act
      (calls ++ more, replies ++ [reply], s))
    ([], [], s)

def descriptor (i : Nat) (s : Session) : Option Nat :=
  s.ask i fun e => if e.sound then some i else none

/-- The reports that a wait for readiness would end with. -/
def reports (s : Session) : List Readiness :=
  s.state.poller.dueReports (fun i => (s.endpoints[i]?.any Endpoint.canRead)) fun _ => true

/-- A connection is called: the endpoint takes note, and its acts and those that wait for its tick are
done. -/
def called (selectable token : Nat) (callback : Callback) (s : Session) : World × Session :=
  let fault := s.ask selectable (Endpoint.faultOf callback)
  let s := s.modify selectable (Endpoint.note token callback)
  match callback with
  | .registered =>
    let acts := (s.ask selectable fun e => some e.onRegistered).getD []
    let (calls, _, s) := s.resolveAll acts
    ({ calls, fault }, s)
  | .tick =>
    let s := { s with ticked := selectable :: s.ticked }
    match s.errand with
    | some errand =>
      if errand.selectable = selectable then
        let (calls, replies, s) := s.resolveAll errand.acts
        ({ calls, fault }, { s with errand := none, replies })
      else ({ fault }, s)
    | none => ({ fault }, s)
  | _ => ({ fault }, s)

/-- What the world has to say to an instruction, and what becomes of the endpoints by it. -/
def world (instruction : Instruction) (own : Own) (s : Session) : World × Session :=
  match instruction with
  | .poll _ => ({ polled := some s.reports }, s)
  | .enroll selectable _ =>
    ({ interest := some (s.ask selectable Endpoint.interest)
       descriptor := s.descriptor selectable }, s)
  | .apply token _ =>
    ({ descriptor := (own.live.find? token).bind fun c => s.descriptor c.selectable }, s)
  | .call selectable token callback => s.called selectable token callback
  | _ => ({}, s)

def go (i : Nat) (s : Session) : Option Session :=
  match s.system.threads[i]? with
  | some ⟨own, instruction :: _⟩ =>
    let (world, s) := s.world instruction own
    (machine.step world i s.system).map fun (system, _) => { s with system }
  | _ => none

/-- Thread `i` is about to wait for readiness. -/
def atPoll (i : Nat) (s : Session) : Bool :=
  match s.system.threads[i]?.bind (·.todo.head?) with
  | some (.poll _) => true
  | _ => false

/-- Thread `i` goes on until it is about to wait for readiness, or cannot go on. -/
def goToPoll (i : Nat) : Nat → Session → Session
  | 0, s => s
  | steps + 1, s =>
    if s.atPoll i then s
    else match go i s with
      | some s => goToPoll i steps s
      | none => s

/-- Thread `i` goes on until it has nothing left to do or cannot go on. -/
def goToEnd (i : Nat) : Nat → Session → Session
  | 0, s => s
  | steps + 1, s =>
    match go i s with
    | some s => goToEnd i steps s
    | none => s

/-- Every worker goes through one iteration. -/
def iterate (s : Session) : Session :=
  s.workers.foldl
    (fun s i =>
      let s := goToPoll i longestIteration s
      match go i { s with ticked := [] } with
      | some s => goToPoll i longestIteration s
      | none => s)
    s

/-- Iterations until `stop`, at most so many. -/
def iterateUntil (stop : Session → Bool) : Nat → Session → Session
  | 0, s => s
  | rounds + 1, s => if stop s then s else iterateUntil stop rounds s.iterate

def issue (calls : List Call) (s : Session) : Session :=
  let threads := s.system.threads.set 0 ⟨{}, calls.map Instruction.ofCall⟩
  goToEnd 0 longestIteration { s with system := { s.system with threads } }

def perform (acts : List Act) (s : Session) : List Reply × Session :=
  acts.foldl
    (fun (replies, s) act =>
      let (calls, reply, s) := s.resolve act
      (replies ++ [reply], s.issue calls))
    ([], s)

/-- The reactor and the endpoints, whose notes begin anew. -/
def survey (s : Session) : Report × Session :=
  let overview : Overview :=
    { connections := s.state.connections
      running := s.state.owner != noWorker
      workers := s.state.workersStarted
      description := s.state.describe }
  ({ overview := if s.dropped then none else some overview
     accounts := some (s.named.filterMap fun i => s.ask i fun e => some ⟨e.id, e.token, e.notes⟩) },
    { s with endpoints := s.endpoints.map ({ · with notes := {} }) })

/-- The ids of the endpoints that were ticked, in order. -/
def tickedIds (s : Session) : List String :=
  (((s.named.filter s.ticked.contains).filterMap fun i => s.ask i fun e => some e.id).mergeSort
    fun a b => a ≤ b)

/-- Something arrives at an endpoint. -/
def arrive (i : Nat) (concerns : Interest → Bool) (f : Endpoint → Endpoint) (s : Session) : Session :=
  let s := s.modify i f
  let shared := { s.state with poller := s.state.poller.arrived i concerns }
  { s with system := { s.system with shared } }

def execute (command : Command) (s : Session) : Report × Session :=
  match command with
  | .create endpoint => ({}, { s with endpoints := s.endpoints ++ [endpoint] })
  | .act acts =>
    let (replies, s) := s.perform acts
    ({ replies := some replies }, s)
  | .tick on acts =>
    match s.place? on with
    | none => ({ ok := false }, s)
    | some i =>
      let s := iterateUntil (·.errand.isNone) patience { s with errand := some ⟨i, acts⟩, replies := [] }
      ({ ok := s.errand.isNone, replies := some s.replies }, { s with errand := none })
  | .send id data =>
    match s.place? id with
    | none => ({ ok := false }, s)
    | some i =>
      if (s.endpoints[i]?.any (·.farOpen)) then
        if data.isEmpty then ({}, s)
        else ({}, s.arrive i Interest.includesRead fun e => { e with unread := e.unread ++ data })
      else ({ ok := false }, s)
  | .hangup id =>
    match s.place? id with
    | none => ({ ok := false }, s)
    | some i =>
      if (s.endpoints[i]?.any (·.farOpen)) then
        ({}, s.arrive i (fun _ => true) ({ · with farOpen := false }))
      else ({ ok := false }, s)
  | .sync on =>
    let s := iterateUntil (fun _ => false) syncIterations s
    let (report, s') := s.survey
    let ok := (s.place? on).any s.ticked.contains
    ({ report with ok, ticking := some s.tickedIds }, s')
  | .waitIdle =>
    let s := iterateUntil (·.workers.isEmpty) patience s
    let (report, s') := s.survey
    ({ report with ok := s.workers.isEmpty }, s')
  | .state => s.survey
  | .dropReactor _ =>
    let s := iterateUntil (·.workers.isEmpty) patience { s with dropped := true }
    ({ ok := s.workers.isEmpty }, s)

end Session

end PeerSubstrate.Reactor
