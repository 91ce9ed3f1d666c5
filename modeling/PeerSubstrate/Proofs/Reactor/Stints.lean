import PeerSubstrate.Proofs.Reactor.Election

/-!
# Stints of the worker

A worker goes round in phases, and what it has to do never mixes two of them (`InPhase`). What it does to its table of
connections and to the poller, and what an observer sees of it, is said once for each kind of step (`Stint`).
-/

namespace PeerSubstrate.Reactor
open PeerSubstrate.Concurrency

/-- The parts of a round, and the way out. -/
inductive Phase where
  | waiting
  | dispatching
  | attaching
  | gathering
  | applying
  | deciding
  | leaving
  deriving DecidableEq

/-- The worker is at work on its connections. -/
def Phase.serving : Phase → Bool
  | .waiting | .deciding | .leaving => false
  | _ => true

namespace Instruction

/-- The phase in which this is done, unless it may be done in any. -/
def phase? : Instruction → Option Phase
  | .announce | .seeRegistrations | .seeChanges | .poll _ => some .waiting
  | .dispatch _ | .call _ _ (.ready _ _) | .tickAll => some .dispatching
  | .call _ _ .tick | .attach | .enroll _ _ | .call _ _ .registered | .insert _ _ => some .attaching
  | .drain | .applyAll => some .gathering
  | .apply _ _ | .call _ _ (.interestApplied _) | .publish => some .applying
  | .decide => some .deciding
  | .vacate | .inspect | .regain | .retire => some .leaving
  | _ => none

/-- It has to do with the queues, the owner slot and the worker's sleep, and with no connection. Any thread may do it. -/
def outward : Instruction → Bool
  | .register _ | .ensure | .claim _ | .spawn _ | .countStarted | .request _ | .glance | .wake => true
  | _ => false

/-- It does nothing to connections. -/
def idle : Instruction → Bool
  | .unblock | .panic | .guarded => true
  | i => i.outward

theorem idle_of_outward {i : Instruction} (outward : i.outward = true) : i.idle = true := by
  cases i <;> first | rfl | exact Bool.noConfusion outward

theorem phase?_of_idle {i : Instruction} (idle : i.idle = true) : i.phase? = none := by
  cases i <;> first | rfl | exact Bool.noConfusion idle

theorem phase?_of_outward {i : Instruction} (outward : i.outward = true) : i.phase? = none :=
  phase?_of_idle (idle_of_outward outward)

theorem post?_of_idle {i : Instruction} (idle : i.idle = true) : i.post? = none := by
  cases i <;> first | rfl | exact Bool.noConfusion idle

theorem inLoop_of_resting {i : Instruction} {p : Phase} (isPhase : i.phase? = some p) (resting : p.serving = false) :
    i.post?.any Post.inLoop = true := by
  unfold phase? at isPhase
  split at isPhase <;> cases isPhase <;> first | rfl | cases resting

end Instruction

/-- All of it belongs to one phase, and what is done between two rounds stands alone. -/
structure InPhase (todo : List Instruction) : Prop where
  alike : ∀ {i j p q}, i ∈ todo → j ∈ todo → i.phase? = some p → j.phase? = some q → p = q
  alone : ∀ {i p}, i ∈ todo → i.phase? = some p → p.serving = false → todo = [i]

namespace InPhase

variable {i j : Instruction} {todo rest : List Instruction} {p : Phase}

theorem nil : InPhase [] where
  alike here := by cases here
  alone here := by cases here

theorem single (i : Instruction) : InPhase [i] := by
  constructor
  · intro j k p q here there isPhase other
    rw [List.mem_singleton.mp here] at isPhase
    rw [List.mem_singleton.mp there] at other
    exact Option.some.inj (isPhase.symm.trans other)
  · intro j p here _ _
    rw [List.mem_singleton.mp here]

private theorem of_serving (serving : p.serving = true) (all : ∀ i ∈ todo, i.phase? = none ∨ i.phase? = some p) :
    InPhase todo := by
  have only : ∀ {i q}, i ∈ todo → i.phase? = some q → q = p := by
    intro i q here isPhase
    simpa [isPhase] using all i here
  constructor
  · intro i j q r here there isPhase other
    exact (only here isPhase).trans (only there other).symm
  · intro i q here isPhase resting
    rw [only here isPhase, serving] at resting
    cases resting

/-- What stands behind something else is part of the work on connections. -/
theorem behind (inPhase : InPhase (i :: rest)) (later : j ∈ rest) (isPhase : j.phase? = some p) : p.serving = true := by
  cases isServing : p.serving with
  | true => rfl
  | false =>
    have alone := inPhase.alone (List.mem_cons_of_mem _ later) isPhase isServing
    rw [(List.cons.inj alone).2] at later
    cases later

private theorem pass (more : List Instruction) (inPhase : InPhase (i :: rest)) (free : ∀ j ∈ more, j.phase? = none) :
    InPhase (more ++ rest) := by
  have only : ∀ {j q}, j ∈ more ++ rest → j.phase? = some q → j ∈ rest := by
    intro j q member isPhase
    rcases List.mem_append.mp member with early | late
    · cases (free j early).symm.trans isPhase
    · exact late
  constructor
  · intro j k q r here there isPhase other
    exact inPhase.alike (List.mem_cons_of_mem _ (only here isPhase)) (List.mem_cons_of_mem _ (only there other)) isPhase other
  · intro j q here isPhase resting
    cases resting.symm.trans (inPhase.behind (only here isPhase) isPhase)

private theorem add (more : List Instruction) (inPhase : InPhase (i :: rest)) (here : i.phase? = some p)
    (serving : p.serving = true)
    (new : ∀ j ∈ more, j.phase? = some p) : InPhase (more ++ rest) := by
  refine of_serving serving fun j member => ?_
  rcases List.mem_append.mp member with early | late
  · exact .inr (new j early)
  · cases isPhase : j.phase? with
    | none => exact .inl rfl
    | some q => rw [inPhase.alike (List.mem_cons_of_mem _ late) (List.mem_cons_self ..) isPhase here]; exact .inr rfl

end InPhase

/-! ## Stints -/

/-- What the worker works on. -/
structure Bench where
  live : Live
  poller : Poller
  nextToken : Nat
  connections : Nat

def Bench.of (s : State) (own : Own) : Bench := ⟨own.live, s.poller, s.nextToken, s.connections⟩

/-- Ticks for all connections, in the order in which the table is gone through. -/
def ticks (order : List Nat) (live : Live) : List Instruction :=
  (arranged order (live.map Prod.fst)).filterMap fun token =>
    (live.find? token).map fun connection => .call connection.selectable token .tick

/-- The changes that are to be made, in the order in which the table is gone through. -/
def applications (order : List Nat) (fates : Fates) : List Instruction :=
  (arranged order (fates.map Prod.fst)).filterMap fun token => (fates.lookup token).map fun fate => .apply token fate

/-- A connection is told of its new interest. -/
def news (live : Live) (token : Nat) (result : Applied) : List Instruction :=
  match result, live.find? token with
  | .changed interest, some connection => [.call connection.selectable token (.interestApplied interest)]
  | _, _ => []

/-- What the worker does to its bench when it performs an instruction, what is seen of it, and what it has to do then:
it waits, passes reports on to those connections it knows, makes calls, whatever comes of them, attaches connections,
applies changes, at most one to each connection, and goes round or leaves. -/
inductive Stint (world : World) : Bench → Instruction → List Instruction → List Event → Bench → List Instruction → Prop
  | aside {b i rest} (todo : List Instruction) : i.idle = true → (∀ j ∈ todo, j.outward = true) → Stint world b i rest [] b (todo ++ rest)
  | begin {b} : Stint world b .announce [] [] b [.seeRegistrations]
  | look {b i next} : (i = .seeRegistrations ∨ i = .seeChanges) → (next = .seeChanges ∨ ∃ waits, next = .poll waits) →
      Stint world b i [] [] b [next]
  | poll {b waits} (reports : List Readiness) : Stint world b (.poll waits) [] []
      { b with poller := b.poller.reported reports } (.unblock :: (reports.map .dispatch ++ [.tickAll]))
  | dispatch {b report rest connection} : b.live.find? report.token = some connection →
      Stint world b (.dispatch report) rest [] b
        (.call connection.selectable report.token (.ready report.readable report.writable) :: rest)
  | overlook {b report rest} : b.live.find? report.token = none → Stint world b (.dispatch report) rest [] b rest
  | tickAll {b} : Stint world b .tickAll [] [] b (ticks world.order b.live ++ [.attach])
  | call {b selectable token callback rest todo} : (∀ j ∈ todo, j.idle = true) →
      Stint world b (.call selectable token callback) rest [.called selectable token callback] b (todo ++ rest)
  | attach {b} (selectable : Nat) : Stint world b .attach [] [] { b with nextToken := b.nextToken + 1 }
      [.enroll selectable b.nextToken, .attach]
  | attached {b} : Stint world b .attach [] [] b [.drain]
  | accept {b selectable token interest poller} : world.interest = some interest →
      rewatch? world.descriptor token none interest b.poller = some poller →
      Stint world b (.enroll selectable token) [.attach] [.attached selectable token] { b with poller }
        [.call selectable token .registered, .insert token ⟨selectable, interest⟩, .attach]
  | refuse {b selectable token interest} : world.interest = some interest →
      rewatch? world.descriptor token none interest b.poller = none →
      Stint world b (.enroll selectable token) [.attach] [.refused selectable token] b [.attach]
  | breakDown {b selectable token} : world.interest = none → Stint world b (.enroll selectable token) [.attach] [] b []
  | insert {b token connection rest} : Stint world b (.insert token connection) rest []
      { b with live := b.live ++ [(token, connection)] } rest
  | drain {b i} : (i = .drain ∨ i = .applyAll) → Stint world b .drain [] [] b [i]
  | applyAll {b} (fates : Fates) : (fates.map Prod.fst).Nodup →
      Stint world b .applyAll [] [] b (applications world.order fates ++ [.publish])
  | apply {b token fate rest result live poller} :
      applyFate world.descriptor token fate b.live b.poller = (result, live, poller) →
      Stint world b (.apply token fate) rest [.applied token result] { b with live, poller } (news b.live token result ++ rest)
  | publish {b} : Stint world b .publish [] [] { b with connections := b.live.length } [.decide]
  | again {b i} : (i = .decide ∨ i = .regain) → Stint world b i [] [] b [.announce]
  | leave {b} : b.live = [] → Stint world b .decide [] [] b [.vacate]
  | depart {b i next} : i.phase? = some .leaving → next.phase? = some .leaving → Stint world b i [] [] b [next]
  | retire {b} : Stint world b .retire [] [] b []

section Perform

variable {world : World} {me : Nat} {s : State} {own : Own} {instruction : Instruction} {rest : List Instruction}
  {effect : Effect State Own Instruction Event}

private theorem Stint.enroll {selectable token : Nat}
    (performed : performEnroll s own [.attach] world me selectable token = some effect) :
    Stint world (.of s own) (.enroll selectable token) [.attach] effect.events (.of effect.shared effect.thread.own)
      effect.thread.todo := by
  unfold performEnroll at performed
  split at performed
  · next silent =>
    cases performed
    exact .breakDown silent
  · next paused =>
    cases performed
    exact .accept paused rfl
  · next interest asked =>
    split at performed
    · next poller registered =>
      cases performed
      exact .accept asked registered
    · next refused =>
      cases performed
      exact .refuse asked refused

/-- What a worker in its loop does. -/
theorem Orderly.stint (orderly : Orderly (instruction :: rest)) (inside : instruction ≠ .lock)
    (distinct : (own.fates.map Prod.fst).Nodup)
    (performed : perform world me s own instruction rest = some effect) :
    Stint world (.of s own) instruction rest effect.events (.of effect.shared effect.thread.own) effect.thread.todo := by
  obtain ⟨leads, orderly⟩ := orderly
  cases instruction with
  | register selectable => cases performed; exact .aside [.ensure] rfl (by simp [Instruction.outward])
  | ensure => cases performed; exact .aside [.claim _] rfl (by simp [Instruction.outward])
  | claim worker =>
    simp only [perform] at performed
    split at performed
    · cases performed; exact .aside [.spawn _] rfl (by simp [Instruction.outward])
    · cases performed; exact .aside [.glance] rfl (by simp [Instruction.outward])
  | spawn worker => cases performed; exact .aside [.countStarted] rfl (by simp [Instruction.outward])
  | request change => cases performed; exact .aside [.glance] rfl (by simp [Instruction.outward])
  | glance =>
    cases performed
    refine .aside _ rfl ?_
    split <;> simp [Instruction.outward]
  | countStarted | wake | guarded | unblock => cases performed; exact .aside [] rfl (by simp)
  | lock => exact absurd rfl inside
  | announce =>
    cases leads rfl
    cases performed
    exact .begin
  | seeRegistrations =>
    cases leads rfl
    cases performed
    refine .look (.inl rfl) ?_
    split
    · exact .inl rfl
    · exact .inr ⟨_, rfl⟩
  | seeChanges =>
    cases leads rfl
    cases performed
    exact .look (.inr rfl) (.inr ⟨_, rfl⟩)
  | poll waits =>
    cases leads rfl
    simp only [perform] at performed
    split at performed
    · cases performed
    · cases performed
      dsimp only
      rw [List.append_nil]
      exact .poll _
  | dispatch report =>
    simp only [perform] at performed
    split at performed
    · next known =>
      cases performed
      exact .dispatch known
    · next unknown =>
      cases performed
      exact .overlook unknown
  | tickAll =>
    cases leads rfl
    cases performed
    dsimp only
    rw [List.append_nil]
    exact .tickAll
  | call selectable token callback =>
    cases performed
    refine .call fun j member => ?_
    rcases List.mem_append.mp member with early | late
    · rcases List.mem_append.mp early with called | panics
      · obtain ⟨call, -, rfl⟩ := List.mem_map.mp called
        cases call <;> rfl
      · split at panics
        · cases List.mem_singleton.mp panics
          rfl
        · cases panics
    · cases List.mem_singleton.mp late
      rfl
  | panic =>
    obtain ⟨behind, rfl⟩ := List.head?_eq_some_iff.mp leads
    have caught : Instruction.unwind (.guarded :: behind) = .guarded :: behind := rfl
    simp only [perform, raise, caught, Option.some.injEq] at performed
    subst performed
    exact .aside [] rfl (by simp)
  | attach =>
    cases leads rfl
    simp only [perform] at performed
    split at performed
    · cases performed
      exact .attached
    · cases performed
      exact .attach _
  | enroll selectable token =>
    cases leads
    exact .enroll performed
  | insert token connection => cases performed; exact .insert
  | drain =>
    cases leads rfl
    simp only [perform] at performed
    split at performed
    · cases performed
      exact .drain (.inr rfl)
    · cases performed
      exact .drain (.inl rfl)
  | applyAll =>
    cases leads rfl
    cases performed
    dsimp only
    rw [List.append_nil]
    exact .applyAll _ distinct
  | apply token fate =>
    cases performed
    exact .apply rfl
  | publish =>
    cases leads rfl
    cases performed
    exact .publish
  | decide =>
    cases leads rfl
    simp only [perform, performDecide] at performed
    split at performed
    · cases performed
      exact .again (.inl rfl)
    · next unneeded =>
      have empty : own.live = [] := by
        cases isLive : own.live with
        | nil => rfl
        | cons => simp [isLive] at unneeded
      split at performed
      · cases performed
        exact .again (.inl rfl)
      · cases performed
        exact .leave empty
  | vacate =>
    cases leads rfl
    cases performed
    exact .depart rfl rfl
  | inspect =>
    cases leads rfl
    cases performed
    refine .depart rfl ?_
    split <;> rfl
  | regain =>
    cases leads rfl
    simp only [perform] at performed
    split at performed
    · cases performed
      exact .again (.inr rfl)
    · cases performed
      exact .depart rfl rfl
  | retire =>
    cases leads rfl
    cases performed
    exact .retire

end Perform

/-! ## What a stint keeps -/

theorem mem_ticks {order : List Nat} {live : Live} {i : Instruction} (member : i ∈ ticks order live) :
    ∃ token connection, live.find? token = some connection ∧ i = .call connection.selectable token .tick := by
  obtain ⟨token, -, found⟩ := List.mem_filterMap.mp member
  obtain ⟨connection, known, rfl⟩ := Option.map_eq_some_iff.mp found
  exact ⟨token, connection, known, rfl⟩

theorem mem_applications {order : List Nat} {fates : Fates} {i : Instruction} (member : i ∈ applications order fates) :
    ∃ token fate, i = .apply token fate := by
  obtain ⟨token, -, found⟩ := List.mem_filterMap.mp member
  obtain ⟨fate, -, rfl⟩ := Option.map_eq_some_iff.mp found
  exact ⟨token, fate, rfl⟩

theorem mem_news {live : Live} {token : Nat} {result : Applied} {i : Instruction} (member : i ∈ news live token result) :
    ∃ selectable interest, i = .call selectable token (.interestApplied interest) := by
  unfold news at member
  split at member
  · exact ⟨_, _, List.mem_singleton.mp member⟩
  · cases member

section Stint

variable {world : World} {b b' : Bench} {instruction : Instruction} {rest todo : List Instruction} {events : List Event}

theorem Stint.inPhase (stint : Stint world b instruction rest events b' todo) (inPhase : InPhase (instruction :: rest)) :
    InPhase todo := by
  cases stint with
  | aside _ _ outward => exact inPhase.pass _ fun j member => Instruction.phase?_of_outward (outward j member)
  | call free => exact inPhase.pass _ fun j member => Instruction.phase?_of_idle (free j member)
  | overlook | insert => exact inPhase.pass [] (by simp)
  | dispatch => exact inPhase.add [_] rfl rfl (by simp [Instruction.phase?])
  | apply =>
    refine inPhase.add _ rfl rfl fun j member => ?_
    obtain ⟨selectable, interest, rfl⟩ := mem_news member
    rfl
  | poll reports =>
    refine .of_serving (p := .dispatching) rfl fun i member => ?_
    simp only [List.mem_cons, List.mem_append, List.mem_map, List.not_mem_nil, or_false] at member
    rcases member with rfl | ⟨report, -, rfl⟩ | rfl
    · exact .inl rfl
    · exact .inr rfl
    · exact .inr rfl
  | tickAll =>
    refine .of_serving (p := .attaching) rfl fun i member => .inr ?_
    rcases List.mem_append.mp member with early | late
    · obtain ⟨token, connection, -, rfl⟩ := mem_ticks early
      rfl
    · rw [List.mem_singleton.mp late]
      rfl
  | applyAll fates =>
    refine .of_serving (p := .applying) rfl fun i member => .inr ?_
    rcases List.mem_append.mp member with early | late
    · obtain ⟨token, fate, rfl⟩ := mem_applications early
      rfl
    · rw [List.mem_singleton.mp late]
      rfl
  | attach | accept => exact .of_serving (p := .attaching) rfl (by simp [Instruction.phase?])
  | begin | look | attached | refuse | drain | publish | again | leave | depart => exact .single _
  | breakDown | retire => exact .nil

/-- Between two rounds the bench stays as it is. Before that, the number of connections is published, and a worker is on its
way out only with nothing to serve. -/
theorem Stint.resting (stint : Stint world b instruction rest events b' todo) (inPhase : InPhase (instruction :: rest))
    {i : Instruction} {p : Phase} (member : i ∈ todo) (isPhase : i.phase? = some p) (resting : p.serving = false) :
    (p = .deciding ∧ b'.connections = b'.live.length) ∨
      b' = b ∧ ∃ q, instruction.phase? = some q ∧ q.serving = false ∧ (p = .leaving → q = .leaving ∨ b.live = []) := by
  have late : i ∉ rest := by
    intro later
    cases resting.symm.trans (inPhase.behind later isPhase)
  have only : ∀ {j q}, j ∈ todo → j.phase? = some q → q.serving = false := by
    intro j q there other
    rwa [(stint.inPhase inPhase).alike there member other isPhase]
  cases stint with
  | aside _ _ outward =>
    rcases List.mem_append.mp member with early | later
    · cases (Instruction.phase?_of_outward (outward i early)).symm.trans isPhase
    · exact absurd later late
  | call free =>
    rcases List.mem_append.mp member with early | later
    · cases (Instruction.phase?_of_idle (free i early)).symm.trans isPhase
    · exact absurd later late
  | apply =>
    rcases List.mem_append.mp member with early | later
    · obtain ⟨selectable, interest, rfl⟩ := mem_news early
      cases isPhase
      cases resting
    · exact absurd later late
  | overlook | insert => exact absurd member late
  | poll => cases @only .tickAll _ (by simp) rfl
  | tickAll => cases @only .attach _ (by simp) rfl
  | applyAll => cases @only .publish _ (by simp) rfl
  | dispatch | attach | attached | accept | refuse => cases only (List.mem_cons_self ..) rfl
  | drain next => rcases next with rfl | rfl <;> cases only (List.mem_singleton_self _) rfl
  | begin =>
    cases List.mem_singleton.mp member
    cases isPhase
    exact .inr ⟨rfl, _, rfl, rfl, fun leaves => by cases leaves⟩
  | look here next =>
    cases List.mem_singleton.mp member
    have waiting : some p = some .waiting := by rcases next with rfl | ⟨waits, rfl⟩ <;> exact isPhase.symm
    cases waiting
    rcases here with rfl | rfl <;> exact .inr ⟨rfl, _, rfl, rfl, fun leaves => by cases leaves⟩
  | again here =>
    cases List.mem_singleton.mp member
    cases isPhase
    rcases here with rfl | rfl <;> exact .inr ⟨rfl, _, rfl, rfl, fun leaves => by cases leaves⟩
  | leave empty => exact .inr ⟨rfl, _, rfl, rfl, fun _ => .inr empty⟩
  | depart here => exact .inr ⟨rfl, _, here, rfl, fun _ => .inl rfl⟩
  | publish =>
    cases List.mem_singleton.mp member
    cases isPhase
    exact .inl ⟨rfl, rfl⟩
  | breakDown | retire => cases member

private theorem post?_cons_of_none {i : Instruction} {rest : List Instruction} (free : i.post? = none) :
    post? (i :: rest) = post? rest := by
  simp [post?, free]

/-- A worker stays in its loop until it retires, or breaks down. -/
theorem Stint.stays (stint : Stint world b instruction rest events b' todo)
    (inside : (post? (instruction :: rest)).any Post.inLoop = true) : (post? todo).any Post.inLoop = true ∨
      todo = [] ∧ (instruction = .retire ∧ b' = b ∨ answers world instruction = false) := by
  have passed : ∀ more : List Instruction, instruction.post? = none → (∀ i ∈ more, i.post? = none) →
      (post? (more ++ rest)).any Post.inLoop = true := by
    intro more here free
    rwa [post?_append_of_free free, ← post?_cons_of_none here]
  cases stint with
  | aside _ idle outward =>
    exact .inl (passed _ (Instruction.post?_of_idle idle) fun i member =>
      Instruction.post?_of_idle (Instruction.idle_of_outward (outward i member)))
  | call free => exact .inl (passed _ rfl fun i member => Instruction.post?_of_idle (free i member))
  | dispatch => exact .inl (passed [_] rfl (by simp [Instruction.post?]))
  | overlook | insert => exact .inl (passed [] rfl (by simp))
  | apply =>
    refine .inl (passed _ rfl fun i member => ?_)
    obtain ⟨selectable, interest, rfl⟩ := mem_news member
    rfl
  | look _ next => rcases next with rfl | ⟨waits, rfl⟩ <;> exact .inl rfl
  | drain next => rcases next with rfl | rfl <;> exact .inl rfl
  | poll reports =>
    refine .inl ?_
    rw [post?_cons_of_none rfl, post?_last]
    · rfl
    · intro i member
      obtain ⟨report, -, rfl⟩ := List.mem_map.mp member
      rfl
  | tickAll =>
    refine .inl ?_
    rw [post?_last]
    · rfl
    · intro i member
      obtain ⟨token, connection, -, rfl⟩ := mem_ticks member
      rfl
  | applyAll fates =>
    refine .inl ?_
    rw [post?_last]
    · rfl
    · intro i member
      obtain ⟨token, fate, rfl⟩ := mem_applications member
      rfl
  | begin | attach | attached | accept | refuse | publish | again | leave => exact .inl rfl
  | depart _ next => exact .inl ((congrArg _ (@post?_last [] _ (by simp))).trans (Instruction.inLoop_of_resting next rfl))
  | breakDown silent => exact .inr ⟨rfl, .inr (by simp [answers, silent])⟩
  | retire => exact .inr ⟨rfl, .inl ⟨rfl, rfl⟩⟩

end Stint

end PeerSubstrate.Reactor
