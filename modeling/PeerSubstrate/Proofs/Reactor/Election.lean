import Mathlib.Data.List.Basic
import PeerSubstrate.Proofs.Reactor.Turns

/-!
# The one worker

Along every run at most one worker is in its loop, the owner slot names the one worker in office or the one that is about to
be started, and whoever queued a registration while the slot was empty, or the worker that emptied it, looks again
(`Elected`). So no registration is left lying once all calls have returned (`registrations_served`).
-/

namespace PeerSubstrate.Reactor
open PeerSubstrate.Concurrency

/-- The worker in office and those that are about to be started, by what a thread owes and where it stands. -/
def officers (worker : Nat) (post : Option Post) (owed : List Instruction) : List Nat :=
  owed.filterMap Instruction.starts? ++ if post.any Post.inOffice then [worker] else []

/-- The slot names the only officer there is. There is one unless the slot is empty, or unless one may have broken down. -/
def Manned (safe : Prop) (owner : Nat) (office : List Nat) : Prop :=
  office = [] ∧ (safe → owner = noWorker) ∨ office = [owner] ∧ owner ≠ noWorker

private theorem Manned.perm {safe : Prop} {owner : Nat} {office office' : List Nat} (manned : Manned safe owner office)
    (same : office.Perm office') : Manned safe owner office' := by
  rcases manned with ⟨rfl, empty⟩ | ⟨rfl, taken⟩
  · exact .inl ⟨List.nil_perm.mp same, empty⟩
  · exact .inr ⟨List.singleton_perm.mp same |>.symm, taken⟩

/-- The thread is going to look whether there is a worker. -/
def Instruction.seeks : Instruction → Bool
  | .ensure | .claim _ => true
  | _ => false

/-- By what it owes and where it stands, a thread looks after registrations that have no worker. -/
def Watches (post : Option Post) (owed : List Instruction) : Prop :=
  (∃ i ∈ owed, i.seeks = true) ∨ post = some .inspecting ∨ post = some .regaining

section Turn

variable {safe : Prop} {worker : Nat} {d d' : Desk} {p p' : Option Post} {gone new : List Instruction} {started : List Nat}

/-- The poller is in the hands of a worker that is in its loop. -/
theorem Turn.alone (turn : Turn safe worker d p gone d' p' new started) :
    (p'.any Post.inLoop).toNat + d.held.toNat ≤ (p.any Post.inLoop).toNat + d'.held.toNat := by
  cases turn with
  | enter free => simp [free, Post.inLoop]
  | retire | breakDown =>
    have bound := Bool.toNat_le d.held
    simp [Post.inLoop]
    omega
  | seeRegistrations | inspect => split <;> simp [Post.inLoop]
  | _ => simp [Post.inLoop]

private theorem Turn.stays (turn : Turn safe worker d p gone d' p' new started) (isWorker : p'.isSome = true) :
    p.isSome = true := by
  cases turn with
  | apart | register | ensure | elect | spawn | defer | request | glance | wake => exact isWorker
  | _ => rfl

private theorem Turn.numbered (turn : Turn safe worker d p gone d' p' new started) :
    d.nextWorker ≤ d'.nextWorker ∧ ∀ other, .claim other ∈ new → other = d.nextWorker := by
  cases turn with
  | ensure => simp
  | glance => split <;> simp
  | _ => simp

/-- Either there are the same officers as before, unless one has broken down, or there is one more, or the slot is cleared. -/
theorem Turn.officers (turn : Turn safe worker d p gone d' p' new started) :
    (d'.owner = d.owner ∧ (started ++ officers worker p' new = officers worker p gone ∨
      ¬ safe ∧ started ++ officers worker p' new = [])) ∨
    (d.owner = noWorker ∧ started ++ officers worker p' new = d'.owner :: officers worker p gone ∧
      (.claim d'.owner ∈ gone ∨ p.isSome = true ∧ d'.owner = worker)) ∨
    d'.owner = noWorker ∧ officers worker p gone = [worker] ∧ started ++ officers worker p' new = [] := by
  cases turn with
  | elect free => exact .inr (.inl ⟨free, rfl, .inl (by simp)⟩)
  | regain free => exact .inr (.inl ⟨free, rfl, .inr ⟨rfl, rfl⟩⟩)
  | vacate => exact .inr (.inr ⟨rfl, rfl, rfl⟩)
  | breakDown held exposed => exact .inl ⟨rfl, .inr ⟨exposed, rfl⟩⟩
  | seeRegistrations | inspect | glance => split <;> exact .inl ⟨rfl, .inl rfl⟩
  | _ => exact .inl ⟨rfl, .inl rfl⟩

private theorem Turn.manned (turn : Turn safe worker d p gone d' p' new started) {others : List Nat}
    (manned : Manned safe d.owner (Reactor.officers worker p gone ++ others))
    (claims : ∀ other, .claim other ∈ gone → other ≠ noWorker) (isWorker : p.isSome = true → worker ≠ noWorker) :
    Manned safe d'.owner (started ++ Reactor.officers worker p' new ++ others) := by
  rcases turn.officers with ⟨owner, same | ⟨exposed, none⟩⟩ | ⟨free, more, number⟩ | ⟨cleared, one, none⟩
  · rw [owner, same]
    exact manned
  · rw [owner, none, List.nil_append]
    rcases manned with ⟨empty, -⟩ | ⟨one, taken⟩
    · exact .inl ⟨(List.append_eq_nil_iff.mp empty).2, fun isSafe => absurd isSafe exposed⟩
    · rcases List.append_eq_singleton_iff.mp one with ⟨-, one⟩ | ⟨-, none⟩
      · exact .inr ⟨one, taken⟩
      · exact .inl ⟨none, fun isSafe => absurd isSafe exposed⟩
  · rcases manned with ⟨empty, -⟩ | ⟨-, taken⟩
    · obtain ⟨mine, rfl⟩ := List.append_eq_nil_iff.mp empty
      rw [more, mine]
      refine .inr ⟨rfl, ?_⟩
      rcases number with claimed | ⟨works, isOwn⟩
      · exact claims _ claimed
      · rw [isOwn]
        exact isWorker works
    · exact absurd free taken
  · rw [none, List.nil_append]
    rw [one] at manned
    rcases manned with ⟨empty, -⟩ | ⟨alone, -⟩
    · cases empty
    · exact .inl ⟨(List.cons.inj alone).2, fun _ => cleared⟩

/-- Somebody looks after registrations as long as there is no worker. -/
theorem Turn.watched (turn : Turn safe worker d p gone d' p' new started) {elsewhere : Prop}
    (watched : d.registrations ≠ [] → d.owner ≠ noWorker ∨ Watches p gone ∨ elsewhere)
    (claims : ∀ other, .claim other ∈ gone → other ≠ noWorker) (isWorker : p.isSome = true → worker ≠ noWorker)
    (waiting : d'.registrations ≠ []) : d'.owner ≠ noWorker ∨ Watches p' new ∨ elsewhere := by
  cases turn with
  | register | ensure => exact .inr (.inl (.inl ⟨_, List.mem_singleton_self _, rfl⟩))
  | elect => exact .inl (claims _ (List.mem_singleton_self _))
  | defer taken | desist taken => exact .inl taken
  | regain => exact .inl (isWorker rfl)
  | vacate => exact .inr (.inl (.inr (.inl rfl)))
  | inspect =>
    have busy : d.registrations.isEmpty = false := by simpa using waiting
    rw [busy]
    exact .inr (.inl (.inr (.inr rfl)))
  | serve fewer =>
    have before : d.registrations ≠ [] := by
      intro none
      exact waiting (List.suffix_nil.mp (none ▸ fewer))
    simpa [Watches] using watched before
  | seeRegistrations | glance => split <;> simpa [Watches, Instruction.seeks] using watched waiting
  | _ => simpa [Watches, Instruction.seeks] using watched waiting

end Turn

/-- The officers among what a thread is and owes. -/
def office (thread : Thread Own Instruction) : List Nat :=
  officers thread.own.worker (post? thread.todo) (errands thread.todo)

/-- The thread is a worker that has the poller. -/
def inLoop (thread : Thread Own Instruction) : Bool := (post? thread.todo).any Post.inLoop

/-- What holds while threads make calls and workers serve. -/
structure Elected (safe : Prop) (s : System State Own Instruction) : Prop where
  orderly : ∀ thread ∈ s.threads, Orderly thread.todo
  emptied : ∀ thread ∈ s.threads, .vacate ∈ thread.todo → thread.todo = [.vacate] ∧ thread.own.live = []
  alone : s.threads.countP inLoop ≤ s.shared.holder.isSome.toNat
  fresh : s.shared.nextWorker ≠ noWorker
  claims : ∀ thread ∈ s.threads, ∀ worker, .claim worker ∈ errands thread.todo → worker ≠ noWorker
  numbered : ∀ thread ∈ s.threads, (post? thread.todo).isSome = true → thread.own.worker ≠ noWorker
  manned : Manned safe s.shared.owner (s.threads.flatMap office)
  watched : s.shared.registrations ≠ [] →
    s.shared.owner ≠ noWorker ∨ ∃ thread ∈ s.threads, Watches (post? thread.todo) (errands thread.todo)

theorem mem_office_iff {thread : Thread Own Instruction} {worker : Nat} : worker ∈ office thread ↔
    .spawn worker ∈ thread.todo ∨ thread.own.worker = worker ∧ (post? thread.todo).any Post.inOffice = true := by
  have starts : ∀ i : Instruction, i.starts? = some worker ↔ i = .spawn worker := by
    intro i
    cases i <;> simp [Instruction.starts?]
  rw [office, officers, List.mem_append, List.mem_filterMap]
  refine or_congr ?_ ?_
  · simp only [starts, exists_eq_right, errands, List.mem_filter]
    exact and_iff_left rfl
  · by_cases inOffice : (post? thread.todo).any Post.inOffice = true
    · simp [inOffice, eq_comm]
    · simp [inOffice]

private theorem office_workerThread (numbers : List Nat) : (numbers.map workerThread).flatMap office = numbers := by
  induction numbers with
  | nil => rfl
  | cons number numbers ih => exact congrArg (number :: ·) ih

/-- One thread's share in the officers, in front of all others. -/
theorem offices_perm {before after more : List (Thread Own Instruction)} {thread : Thread Own Instruction}
    {gone owed : List Instruction} (owes : errands thread.todo = gone ++ owed) :
    ((before ++ thread :: (after ++ more)).flatMap office).Perm
      (more.flatMap office ++ officers thread.own.worker (post? thread.todo) gone ++
        (owed.filterMap Instruction.starts? ++ (before ++ after).flatMap office)) := by
  have mine : (office thread).Perm (officers thread.own.worker (post? thread.todo) gone ++ owed.filterMap Instruction.starts?) := by
    rw [office, owes, officers, officers, List.filterMap_append, List.append_assoc, List.append_assoc]
    exact List.perm_append_comm.append_left _
  rw [List.perm_iff_count]
  intro number
  have share := mine.count_eq number
  simp only [List.flatMap_append, List.flatMap_cons, List.count_append] at share ⊢
  omega

section Step

variable {safe : Prop} {world : World} {me : Nat} {shared : State} {own : Own} {instruction : Instruction}
  {rest : List Instruction} {before after : List (Thread Own Instruction)} {effect : Effect State Own Instruction Event}

theorem mem_threads {thread one : Thread Own Instruction} {numbers : List Nat} :
    thread ∈ before ++ one :: (after ++ numbers.map workerThread) ↔
      thread = one ∨ thread ∈ before ++ after ∨ ∃ number ∈ numbers, workerThread number = thread := by
  rw [mem_threads_iff, List.mem_map]

/-- A worker in its loop is alone there. -/
theorem Elected.outside {one thread : Thread Own Instruction} (elected : Elected safe ⟨shared, before ++ one :: after⟩)
    (inside : inLoop one = true) (other : thread ∈ before ++ after) : inLoop thread = false := by
  have counted : (before ++ one :: after).countP inLoop ≤ 1 := Nat.le_trans elected.alone (Bool.toNat_le _)
  rw [List.countP_append, List.countP_cons_of_pos inside] at counted
  have none : (before ++ after).countP inLoop = 0 := by
    rw [List.countP_append]
    omega
  exact Bool.eq_false_iff.mpr (List.countP_eq_zero.mp none thread other)

theorem Elected.step (elected : Elected safe ⟨shared, before ++ ⟨own, instruction :: rest⟩ :: after⟩)
    (answered : safe → answers world instruction = true)
    (performed : perform world me shared own instruction rest = some effect) :
    Elected safe ⟨effect.shared, before ++ effect.thread :: (after ++ effect.started)⟩ := by
  have here : ⟨own, instruction :: rest⟩ ∈ before ++ ⟨own, instruction :: rest⟩ :: after := by simp
  obtain ⟨orderly, worker, emptied, new, started, owes, starts, turn⟩ := (elected.orderly _ here).continues answered performed
  have owed : errands (instruction :: rest) = errands [instruction] ++ errands rest := errands_append [instruction] rest
  have claims : ∀ other, .claim other ∈ errands [instruction] → other ≠ noWorker := by
    intro other member
    exact elected.claims _ here other (owed ▸ List.mem_append_left _ member)
  have isWorker := elected.numbered _ here
  have manned : Manned safe effect.shared.owner
      ((before ++ effect.thread :: (after ++ started.map workerThread)).flatMap office) := by
    have beforehand := @offices_perm before after [] ⟨own, instruction :: rest⟩ _ _ owed
    have afterwards := @offices_perm before after (started.map workerThread) effect.thread _ _ owes
    rw [List.append_nil] at beforehand
    rw [office_workerThread, worker] at afterwards
    exact (turn.manned (elected.manned.perm beforehand) claims isWorker).perm afterwards.symm
  rw [starts]
  constructor
  case orderly =>
    intro thread member
    rcases mem_threads.mp member with rfl | old | ⟨number, -, rfl⟩
    · exact orderly
    · exact elected.orderly _ (mem_of_other old)
    · exact ⟨rfl, fun _ => rfl, trivial⟩
  case emptied =>
    intro thread member leaves
    rcases mem_threads.mp member with rfl | old | ⟨number, -, rfl⟩
    · rcases emptied leaves with behind | now
      · have alone := (elected.emptied _ here (List.mem_cons_of_mem _ behind)).1
        rw [(List.cons.inj alone).2] at behind
        cases behind
      · exact now
    · exact elected.emptied _ (mem_of_other old) leaves
    · simp [workerThread] at leaves
  case alone =>
    have moved := turn.alone
    have counted := elected.alone
    have outside : (started.map workerThread).countP inLoop = 0 := by
      rw [List.countP_eq_zero]
      intro thread member
      obtain ⟨number, -, rfl⟩ := List.mem_map.mp member
      exact Bool.false_ne_true
    have sum : ∀ thread others, List.countP inLoop (thread :: others) = others.countP inLoop + (inLoop thread).toNat := by
      intro thread others
      rw [List.countP_cons]
      cases inLoop thread <;> rfl
    rw [List.countP_append, sum] at counted ⊢
    rw [List.countP_append, outside]
    simp only [inLoop, State.desk] at counted moved ⊢
    omega
  case fresh =>
    have more : shared.nextWorker ≤ effect.shared.nextWorker := turn.numbered.1
    have some : 0 < shared.nextWorker := Nat.pos_of_ne_zero elected.fresh
    exact Nat.ne_of_gt (Nat.lt_of_lt_of_le some more)
  case claims =>
    intro thread member other claim
    rcases mem_threads.mp member with rfl | old | ⟨number, -, rfl⟩
    · rw [owes] at claim
      rcases List.mem_append.mp claim with now | behind
      · rw [turn.numbered.2 other now]
        exact elected.fresh
      · exact elected.claims _ here other (owed ▸ List.mem_append_right _ behind)
    · exact elected.claims _ (mem_of_other old) other claim
    · cases claim
  case numbered =>
    intro thread member works
    rcases mem_threads.mp member with rfl | old | ⟨number, new, rfl⟩
    · rw [worker]
      exact isWorker (turn.stays works)
    · exact elected.numbered _ (mem_of_other old) works
    · have officer : number ∈ (before ++ effect.thread :: (after ++ started.map workerThread)).flatMap office :=
        List.mem_flatMap.mpr ⟨workerThread number, member, List.mem_singleton_self number⟩
      rcases manned with ⟨none, -⟩ | ⟨one, taken⟩
      · rw [none] at officer
        cases officer
      · rw [one] at officer
        rwa [← List.mem_singleton.mp officer] at taken
  case manned => exact manned
  case watched =>
    intro waiting
    have looks := @Turn.watched _ _ _ _ _ _ _ _ _ turn
      ((∃ i ∈ errands rest, i.seeks = true) ∨ ∃ thread ∈ before ++ after, Watches (post? thread.todo) (errands thread.todo))
      ?_ claims isWorker waiting
    · rcases looks with taken | (⟨i, new, seeks⟩ | post) | ⟨i, behind, seeks⟩ | ⟨thread, old, watches⟩
      · exact .inl taken
      · exact .inr ⟨_, mem_threads.mpr (.inl rfl), .inl ⟨i, owes ▸ List.mem_append_left _ new, seeks⟩⟩
      · exact .inr ⟨_, mem_threads.mpr (.inl rfl), .inr post⟩
      · exact .inr ⟨_, mem_threads.mpr (.inl rfl), .inl ⟨i, owes ▸ List.mem_append_right _ behind, seeks⟩⟩
      · exact .inr ⟨thread, mem_threads.mpr (.inr (.inl old)), watches⟩
    · intro queued
      rcases elected.watched queued with taken | ⟨thread, member, watches⟩
      · exact .inl taken
      · refine .inr ?_
        rcases (@mem_threads _ _ _ _ []).mp (by simpa using member) with rfl | old | ⟨number, none, -⟩
        · rw [owed] at watches
          rcases watches with ⟨i, mine, seeks⟩ | post
          · rcases List.mem_append.mp mine with now | behind
            · exact .inl (.inl ⟨i, now, seeks⟩)
            · exact .inr (.inl ⟨i, behind, seeks⟩)
          · exact .inl (.inr post)
        · exact .inr (.inr ⟨thread, old, watches⟩)
        · cases none

end Step

/-! ## Runs -/

section Run

variable {idleIterations : Nat} {calls : List (List Call)} {s : System State Own Instruction} {seen : List Event}

/-- Callers are no workers, and owe nothing yet. -/
theorem callers_apart {thread : Thread Own Instruction} (member : thread ∈ (callers idleIterations calls).threads) :
    Orderly thread.todo ∧ ∀ i ∈ thread.todo, i.Apart := by
  obtain ⟨calls, -, rfl⟩ := List.mem_map.mp member
  refine ⟨orderly_calls calls, fun i member => ?_⟩
  obtain ⟨call, -, rfl⟩ := List.mem_map.mp member
  cases call <;> exact ⟨rfl, rfl, fun _ post => Bool.noConfusion post⟩

theorem Elected.start (safe : Prop) (idleIterations : Nat) (calls : List (List Call)) :
    Elected safe (callers idleIterations calls) := by
  have post : ∀ thread ∈ (callers idleIterations calls).threads, post? thread.todo = none := fun thread member =>
    List.findSome?_eq_none_iff.mpr fun i here => ((callers_apart member).2 i here).1
  have owed : ∀ thread ∈ (callers idleIterations calls).threads, errands thread.todo = [] := fun thread member =>
    errands_eq_nil fun i here => ((callers_apart member).2 i here).2.1
  constructor
  case orderly => exact fun thread member => (callers_apart member).1
  case emptied =>
    intro thread member leaves
    have isPost := ((callers_apart member).2 _ leaves).1
    cases isPost
  case alone =>
    refine Nat.le_of_eq (List.countP_eq_zero.mpr fun thread member => ?_)
    simp [inLoop, post thread member]
  case fresh => exact Nat.one_ne_zero
  case claims =>
    intro thread member other claim
    rw [owed thread member] at claim
    cases claim
  case numbered =>
    intro thread member works
    simp [post thread member] at works
  case manned =>
    refine .inl ⟨List.flatMap_eq_nil_iff.mpr fun thread member => ?_, fun _ => rfl⟩
    simp [office, officers, post thread member, owed thread member]
  case watched => exact fun waiting => absurd rfl waiting

theorem Elected.safe_run (run : (machine.restrict answers).Run (callers idleIterations calls) s seen) : Elected True s :=
  run.keeps (Elected.start _ _ _) fun elected performed =>
    elected.step (fun _ => (Machine.restrict_perform.mp performed).1) (Machine.restrict_perform.mp performed).2

private theorem exists_of_post {todo : List Instruction} {p : Post} (post : post? todo = some p) :
    ∃ i ∈ todo, i.post? = some p :=
  List.exists_of_findSome?_eq_some post

/-- No call to register is under way, and no worker has cleared the slot without having looked again. -/
def Settled (s : System State Own Instruction) : Prop :=
  ∀ thread ∈ s.threads, ∀ i ∈ thread.todo, i.elects = false ∧ i ≠ .inspect ∧ i ≠ .regain

/-- The worker in office is a thread. -/
theorem Elected.officer {safe : Prop} (elected : Elected safe s) (isSafe : safe) (settled : Settled s)
    (taken : s.shared.owner ≠ noWorker) : ∃ thread ∈ s.threads, thread.own.worker = s.shared.owner ∧
      (post? thread.todo).any Post.inOffice = true := by
  rcases elected.manned with ⟨-, empty⟩ | ⟨one, -⟩
  · exact absurd (empty isSafe) taken
  · have officer : s.shared.owner ∈ s.threads.flatMap office := one ▸ List.mem_singleton_self _
    obtain ⟨thread, member, mine⟩ := List.mem_flatMap.mp officer
    refine ⟨thread, member, ?_⟩
    rcases mem_office_iff.mp mine with starting | serving
    · cases (settled thread member _ starting).1
    · exact serving

private theorem Elected.owned {safe : Prop} (elected : Elected safe s) (settled : Settled s)
    (waiting : s.shared.registrations ≠ []) : s.shared.owner ≠ noWorker := by
  rcases elected.watched waiting with taken | ⟨thread, member, ⟨i, owed, seeks⟩ | post | post⟩
  · exact taken
  · have electing := (settled thread member i (List.mem_of_mem_filter owed)).1
    cases i <;> simp [Instruction.seeks] at seeks <;> simp [Instruction.elects] at electing
  · obtain ⟨i, here, isPost⟩ := exists_of_post post
    have looked := (settled thread member i here).2.1
    cases i <;> simp [Instruction.post?] at isPost
    exact absurd rfl looked
  · obtain ⟨i, here, isPost⟩ := exists_of_post post
    have looked := (settled thread member i here).2.2
    cases i <;> simp [Instruction.post?] at isPost
    exact absurd rfl looked

/-- At most one worker is in its loop, it clears the slot only with nothing to serve, and registrations that are queued once
everything has settled have a worker: the slot names it, and it has not left. -/
theorem registrations_served (run : (machine.restrict answers).Run (callers idleIterations calls) s seen) :
    s.threads.countP inLoop ≤ 1 ∧
    (∀ thread ∈ s.threads, thread.todo.head? = some .vacate → thread.own.live = []) ∧
    (Settled s → s.shared.registrations ≠ [] → s.shared.owner ≠ noWorker ∧
      ∃ thread ∈ s.threads, thread.own.worker = s.shared.owner ∧ (post? thread.todo).any Post.inOffice = true) := by
  have elected := Elected.safe_run run
  refine ⟨Nat.le_trans elected.alone (Bool.toNat_le _), fun thread member leaves => ?_, fun settled waiting => ?_⟩
  · exact (elected.emptied thread member (List.mem_of_mem_head? leaves)).2
  · have taken := elected.owned settled waiting
    exact ⟨taken, elected.officer trivial settled taken⟩

end Run

/-- Two threads register a connection each. -/
def twoCallers : System State Own Instruction := callers 1 [[.register 7], [.register 8]]

/-- The second registration is queued while the worker is about to clear the slot, and its thread still finds the slot
taken. The connection of the first one is not open, so there is nothing to serve. -/
def queuedInPassing : List (World × Nat) :=
  (List.replicate 5 0 ++ List.replicate 13 2 ++ List.replicate 4 1 ++ List.replicate 3 2).map
    ({ interest := some (some .readable) }, ·)

/-- The worker takes the slot back. -/
theorem registration_taken_up : ∃ s seen, (machine.restrict answers).Run twoCallers s seen ∧ s.threads.countP inLoop ≤ 1 ∧
    Settled s ∧ s.shared.registrations = [8] ∧ s.shared.owner = 1 ∧
    ∃ thread ∈ s.threads, thread.own.worker = 1 ∧ (post? thread.todo).any Post.inOffice = true := by
  have ends : ((machine.restrict answers).follow queuedInPassing (twoCallers, [])).map
      (fun past => (past.1.threads.map Thread.todo, past.1.shared.registrations, past.1.shared.owner)) =
      some ([[], [], [.announce]], [8], 1) := by decide
  obtain ⟨⟨s, seen⟩, followed, same⟩ := Option.map_eq_some_iff.mp ends
  simp only [Prod.mk.injEq] at same
  obtain ⟨todos, registrations, owner⟩ := same
  have run := Machine.run_of_follow .start followed
  have settled : Settled s := by
    intro thread member i here
    have isTodo : thread.todo ∈ [[], [], [.announce]] := todos ▸ List.mem_map_of_mem member
    have isAnnounce : i = .announce := by
      simp only [List.mem_cons, List.not_mem_nil, or_false] at isTodo
      rcases isTodo with none | none | one
      · simp [none] at here
      · simp [none] at here
      · simpa [one] using here
    subst isAnnounce
    exact ⟨rfl, by simp, by simp⟩
  obtain ⟨alone, -, served⟩ := registrations_served run
  obtain ⟨-, officer⟩ := served settled (by simp [registrations])
  exact ⟨s, seen, run, alone, settled, registrations, owner, owner ▸ officer⟩

end PeerSubstrate.Reactor
