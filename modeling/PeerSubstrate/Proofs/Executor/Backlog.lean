import PeerSubstrate.Proofs.Executor.Staffing

/-!
# Who sees the backlog

As long as a job waits in the immediate pool, the pool has all the workers it may have, or a worker is about to wait or to
look, or somebody is about to add a worker, or a worker has left the backlog (`Immediate.Overseen`).
-/

namespace PeerSubstrate.Executor

namespace Immediate

variable {α : Type}

namespace Step

/-- The worker that has this to do counts itself as idle. -/
def idles : Step α → Bool
  | .choose | .receive _ | .unpark _ => true
  | _ => false

/-- Whoever is at this point will look at the queue, or take a job from it, or add a worker that does; the number of
workers that was counted before does not keep it from that, nor does the length of the queue. -/
def sees (core max : Nat) : Step α → Bool
  | .countQueue threads => threads < max
  | .countIdle threads queued => threads < max && (threads < core || 0 < queued)
  | .send _ | .stop => false
  | _ => true

end Step

/-- What holds of the pool while threads are at these points of it. The backlog may be `deserted`. -/
structure Overseen (p : Shared α) (steps : List (Step α)) (deserted : Prop) : Prop where
  limit : p.threads ≤ p.max
  claims : ∀ threads, .claim threads ∈ steps → threads < p.max
  retires : ∀ threads, .retire threads ∈ steps → 0 < threads
  idle : p.idle = steps.countP Step.idles
  closed : (∃ step ∈ steps, step.closes = true) → p.accepting = false ∧ p.queue = []
  seen : p.queue ≠ [] → p.threads = p.max ∨ (∃ step ∈ steps, step.sees p.core p.max = true) ∨ deserted

section Perform

variable {p p' : Shared α} {expired : Bool} {step : Step α} {new others : List (Step α)} {deserted deserted' : Prop}

/-- A step puts `new` points in the place of its own: what has to be shown of them. -/
theorem Overseen.replace (overseen : Overseen p (step :: others) deserted) (limits : p'.core = p.core ∧ p'.max = p.max)
    (limit : p'.threads ≤ p.max) (claims : ∀ threads, .claim threads ∈ new → threads < p.max)
    (retires : ∀ threads, .retire threads ∈ new → 0 < threads)
    (idle : p'.idle + [step].countP Step.idles = p.idle + new.countP Step.idles)
    (shut : p.accepting = false ∧ p.queue = [] → p'.accepting = false ∧ p'.queue = [])
    (closes : ∀ other ∈ new, other.closes = true → p'.accepting = false ∧ p'.queue = [])
    (keeps : deserted → deserted' ∨ ∃ other ∈ new, other.sees p.core p.max = true)
    (seen : p'.queue ≠ [] → p'.threads = p.max ∨ (∃ other ∈ new ++ others, other.sees p.core p.max = true) ∨ deserted' ∨
      p.queue ≠ [] ∧ step.sees p.core p.max = false ∧ p'.threads = p.threads) :
    Overseen p' (new ++ others) deserted' := by
  have before := overseen.idle
  rw [List.countP_cons, ← List.countP_singleton] at before
  constructor
  case limit =>
    rw [limits.2]
    exact limit
  case claims =>
    intro threads member
    rw [limits.2]
    rcases List.mem_append.mp member with here | there
    · exact claims threads here
    · exact overseen.claims threads (List.mem_cons_of_mem _ there)
  case retires =>
    intro threads member
    rcases List.mem_append.mp member with here | there
    · exact retires threads here
    · exact overseen.retires threads (List.mem_cons_of_mem _ there)
  case idle =>
    rw [List.countP_append]
    omega
  case closed =>
    rintro ⟨other, member, closing⟩
    rcases List.mem_append.mp member with here | there
    · exact closes other here closing
    · exact shut (overseen.closed ⟨other, List.mem_cons_of_mem _ there, closing⟩)
  case seen =>
    intro waiting
    rw [limits.1, limits.2]
    rcases seen waiting with full | sees | left | ⟨queued, blind, threads⟩
    · exact .inl full
    · exact .inr (.inl sees)
    · exact .inr (.inr left)
    · rcases overseen.seen queued with full | ⟨other, member, sees⟩ | left
      · exact .inl (threads.trans full)
      · rcases List.mem_cons.mp member with rfl | there
        · rw [blind] at sees
          cases sees
        · exact .inr (.inl ⟨other, List.mem_append_right _ there, sees⟩)
      · rcases keeps left with still | ⟨other, here, sees⟩
        · exact .inr (.inr still)
        · exact .inr (.inl ⟨other, List.mem_append_left _ here, sees⟩)

/-- A worker that counts itself as idle is counted. -/
theorem Overseen.working (overseen : Overseen p (step :: others) deserted) (idles : step.idles = true) : 0 < p.idle := by
  rw [overseen.idle]
  exact List.countP_pos_iff.mpr ⟨step, List.mem_cons_self, idles⟩

/-- A thread goes on to a point from which it sees the backlog. -/
theorem Overseen.go {next : Step α} (overseen : Overseen p (step :: others) deserted)
    (limits : p'.core = p.core ∧ p'.max = p.max) (threads : p'.threads = p.threads)
    (claims : ∀ threads, next = .claim threads → threads < p.max) (retires : ∀ threads, next = .retire threads → 0 < threads)
    (idle : p'.idle + [step].countP Step.idles = p.idle + [next].countP Step.idles)
    (shut : p.accepting = false ∧ p.queue = [] → p'.accepting = false ∧ p'.queue = [])
    (closes : next.closes = true → p'.accepting = false ∧ p'.queue = [])
    (keeps : deserted → deserted' ∨ ∃ other ∈ [next], other.sees p.core p.max = true)
    (sees : p'.queue ≠ [] → p.threads = p.max ∨ next.sees p.core p.max = true) : Overseen p' (next :: others) deserted' := by
  refine overseen.replace limits ?_ ?_ ?_ idle shut ?_ keeps fun waiting => ?_
  · rw [threads]
    exact overseen.limit
  · intro threads member
    exact claims threads (List.mem_singleton.mp member).symm
  · intro threads member
    exact retires threads (List.mem_singleton.mp member).symm
  · intro other member
    cases List.mem_singleton.mp member
    exact closes
  · rcases sees waiting with full | sees
    · exact .inl (threads.trans full)
    · exact .inr (.inl ⟨next, List.mem_cons_self, sees⟩)

/-- The point of the pool at which a thread goes on, be it one that is started. -/
def front (next : List (Next α)) : List (Step α) := (next.head?.bind Next.step?).toList

/-- Some worker waits, or is about to, if one is counted as idle. -/
theorem Overseen.waits (overseen : Overseen p (step :: others) deserted) (counted : 0 < p.idle) (busy : step.idles = false) :
    ∃ other ∈ others, other.sees p.core p.max = true := by
  rw [overseen.idle, List.countP_cons_of_neg (by simp [busy])] at counted
  obtain ⟨other, member, idles⟩ := List.countP_pos_iff.mp counted
  refine ⟨other, member, ?_⟩
  cases other <;> first | rfl | exact Bool.noConfusion idles

theorem Overseen.perform {next : List (Next α)} (overseen : Overseen p (step :: others) deserted)
    (performed : p.perform expired step = some (p', next))
    (keeps : deserted → deserted' ∨ ∃ other ∈ front next, other.sees p.core p.max = true)
    (leaves : p'.threads < p.threads → p'.queue ≠ [] → deserted') : Overseen p' (front next ++ others) deserted' := by
  have limit := overseen.limit
  cases step with
  | send job =>
    simp only [Shared.perform] at performed
    split at performed
    · next accepting =>
      cases performed
      exact overseen.go ⟨rfl, rfl⟩ rfl (by simp) (by simp) rfl (by simp [accepting]) (by simp [Step.closes]) keeps
        fun _ => .inr rfl
    · cases performed
      exact overseen.replace ⟨rfl, rfl⟩ limit (by simp [front, Next.step?]) (by simp [front, Next.step?]) rfl id
        (by simp [front, Next.step?]) keeps fun queued => .inr (.inr (.inr ⟨queued, rfl, rfl⟩))
  | countThreads =>
    cases performed
    refine overseen.go ⟨rfl, rfl⟩ rfl (by simp) (by simp) rfl id (by simp [Step.closes]) keeps fun _ => ?_
    -- Whoever counts fewer workers than there may be goes on looking.
    by_cases full : p.threads = p.max
    · exact .inl full
    · exact .inr (by simpa [Step.sees] using Nat.lt_of_le_of_ne limit full)
  | countQueue threads =>
    cases performed
    refine overseen.replace ⟨rfl, rfl⟩ limit (by simp [front, Next.step?]) (by simp [front, Next.step?]) rfl id
      (by simp [front, Next.step?, Step.closes]) keeps fun queued => ?_
    by_cases fewer : threads < p.max
    · have some : 0 < p.queue.length := List.length_pos_iff.mpr queued
      exact .inr (.inl ⟨_, List.mem_cons_self, by simp [Step.sees, fewer, some]⟩)
    · exact .inr (.inr (.inr ⟨queued, by simpa [Step.sees] using fewer, rfl⟩))
  | countIdle threads queued =>
    simp only [Shared.perform] at performed
    split at performed
    · next enough =>
      cases performed
      refine overseen.replace ⟨rfl, rfl⟩ limit (by simp [front]) (by simp [front]) rfl id (by simp [front]) keeps
        fun waiting => ?_
      by_cases sees : (Step.countIdle threads queued : Step α).sees p.core p.max = true
      · -- It would add a worker, if there were not an idle one for every job that it has counted.
        have counted : 0 < p.idle := by
          simp only [Step.sees, Bool.and_eq_true, Bool.or_eq_true, decide_eq_true_eq] at sees
          omega
        exact .inr (.inl (overseen.waits counted rfl))
      · exact .inr (.inr (.inr ⟨waiting, Bool.eq_false_iff.mpr sees, rfl⟩))
    · next grows =>
      cases performed
      refine overseen.go ⟨rfl, rfl⟩ rfl ?_ (by simp) rfl id (by simp [Step.closes]) keeps fun _ => .inr rfl
      intro same isClaim
      cases isClaim
      omega
  | claim threads =>
    have fewer := overseen.claims threads List.mem_cons_self
    simp only [Shared.perform] at performed
    split at performed
    · cases performed
      exact overseen.replace ⟨rfl, rfl⟩ fewer (by simp [front, Next.step?]) (by simp [front, Next.step?]) rfl id
        (by simp [front, Next.step?, Step.closes]) keeps fun _ => .inr (.inl ⟨.park, List.mem_cons_self, rfl⟩)
    · cases performed
      exact overseen.go ⟨rfl, rfl⟩ rfl (by simp) (by simp) rfl id (by simp [Step.closes]) keeps fun _ => .inr rfl
  | park =>
    cases performed
    exact overseen.go ⟨rfl, rfl⟩ rfl (by simp) (by simp) rfl id (by simp [Step.closes]) keeps fun _ => .inr rfl
  | choose =>
    cases performed
    exact overseen.go ⟨rfl, rfl⟩ rfl (by simp) (by simp) rfl id (by simp [Step.closes]) keeps fun _ => .inr rfl
  | receive extra =>
    simp only [Shared.perform] at performed
    split at performed
    · next queued =>
      cases performed
      exact overseen.go ⟨rfl, rfl⟩ rfl (by simp) (by simp) rfl (by simp [queued]) (by simp [Step.closes]) keeps fun _ => .inr rfl
    · next empty =>
      split at performed
      · next closed =>
        cases performed
        exact overseen.go ⟨rfl, rfl⟩ rfl (by simp) (by simp) rfl id (fun _ => ⟨by simpa using closed, empty⟩) keeps
          fun _ => .inr rfl
      · split at performed <;> cases performed
        exact overseen.go ⟨rfl, rfl⟩ rfl (by simp) (by simp) rfl id (by simp [Step.closes]) keeps fun _ => .inr rfl
  | unpark received =>
    have idle := overseen.working rfl
    have one : p.idle - 1 + 1 = p.idle := Nat.sub_add_cancel idle
    cases received with
    | job =>
      cases performed
      exact overseen.go ⟨rfl, rfl⟩ rfl (by simp) (by simp) one id (by simp [Step.closes]) keeps fun _ => .inr rfl
    | timedOut =>
      cases performed
      exact overseen.go ⟨rfl, rfl⟩ rfl (by simp) (by simp) one id (by simp [Step.closes]) keeps fun _ => .inr rfl
    | closed =>
      have empty := overseen.closed ⟨_, List.mem_cons_self, rfl⟩
      cases performed
      exact overseen.go ⟨rfl, rfl⟩ rfl (by simp) (by simp) one id (fun _ => empty) keeps fun queued => absurd empty.2 queued
  | consider =>
    simp only [Shared.perform] at performed
    split at performed
    · next extra =>
      cases performed
      refine overseen.go ⟨rfl, rfl⟩ rfl (by simp) ?_ rfl id (by simp [Step.closes]) keeps fun _ => .inr rfl
      intro threads isRetire
      cases isRetire
      omega
    · cases performed
      exact overseen.go ⟨rfl, rfl⟩ rfl (by simp) (by simp) rfl id (by simp [Step.closes]) keeps fun _ => .inr rfl
  | retire threads =>
    have some := overseen.retires threads List.mem_cons_self
    simp only [Shared.perform] at performed
    split at performed
    · next same =>
      cases performed
      refine overseen.replace ⟨rfl, rfl⟩ ?_ (by simp [front]) (by simp [front]) rfl id (by simp [front]) keeps fun queued => ?_
      · simp only
        omega
      · refine .inr (.inr (.inl (leaves ?_ queued)))
        simp only
        omega
    · cases performed
      exact overseen.go ⟨rfl, rfl⟩ rfl (by simp) (by simp) rfl id (by simp [Step.closes]) keeps fun _ => .inr rfl
  | stop =>
    have empty := overseen.closed ⟨_, List.mem_cons_self, rfl⟩
    cases performed
    refine overseen.replace ⟨rfl, rfl⟩ ?_ (by simp [front]) (by simp [front]) rfl id (by simp [front]) keeps
      fun queued => absurd empty.2 queued
    exact Nat.le_trans (Nat.sub_le _ _) limit

end Perform

section Overseen

variable {p : Shared α} {steps : List (Step α)} {deserted : Prop}

theorem Overseen.imp {deserted' : Prop} (overseen : Overseen p steps deserted) (keeps : deserted → deserted') :
    Overseen p steps deserted' := by
  obtain ⟨limit, claims, retires, idle, closed, seen⟩ := overseen
  exact ⟨limit, claims, retires, idle, closed, fun waiting => (seen waiting).imp_right (.imp_right keeps)⟩

theorem Overseen.close (overseen : Overseen p steps deserted) : Overseen p.close steps deserted := by
  obtain ⟨limit, claims, retires, idle, closed, seen⟩ := overseen
  exact ⟨limit, claims, retires, idle, fun closes => ⟨rfl, (closed closes).2⟩, seen⟩

theorem Overseen.perm {others : List (Step α)} (overseen : Overseen p steps deserted) (same : steps.Perm others) :
    Overseen p others deserted := by
  obtain ⟨limit, claims, retires, idle, closed, seen⟩ := overseen
  refine ⟨limit, ?_, ?_, idle.trans (same.countP_eq _), ?_, ?_⟩
  · simpa only [same.mem_iff] using claims
  · simpa only [same.mem_iff] using retires
  · simpa only [same.mem_iff] using closed
  · simpa only [same.mem_iff] using seen

/-- Where a submission or a worker's loop begins, nothing has been counted yet. -/
def Step.begins : Step α → Bool
  | .send _ | .park => true
  | _ => false

private theorem Overseen.add {step : Step α} (overseen : Overseen p steps deserted) (begins : step.begins = true) :
    Overseen p (step :: steps) deserted := by
  obtain ⟨limit, claims, retires, idle, closed, seen⟩ := overseen
  have fresh : (∀ threads, .claim threads ≠ step) ∧ (∀ threads, .retire threads ≠ step) ∧ step.idles = false ∧
      step.closes = false := by
    cases step <;> first | exact Bool.noConfusion begins | simp [Step.idles, Step.closes]
  obtain ⟨noClaim, noRetire, noIdle, noClose⟩ := fresh
  constructor
  case limit => exact limit
  case claims => exact fun threads member => claims threads ((List.mem_cons.mp member).resolve_left (noClaim threads))
  case retires => exact fun threads member => retires threads ((List.mem_cons.mp member).resolve_left (noRetire threads))
  case idle =>
    rw [List.countP_cons_of_neg (by simp [noIdle])]
    exact idle
  case closed =>
    rintro ⟨other, member, closes⟩
    rcases List.mem_cons.mp member with rfl | old
    · rw [noClose] at closes
      cases closes
    · exact closed ⟨other, old, closes⟩
  case seen =>
    intro waiting
    rcases seen waiting with full | ⟨other, old, sees⟩ | left
    · exact .inl full
    · exact .inr (.inl ⟨other, List.mem_cons_of_mem _ old, sees⟩)
    · exact .inr (.inr left)

theorem Overseen.append {more : List (Step α)} (overseen : Overseen p steps deserted)
    (begin : ∀ step ∈ more, step.begins = true) : Overseen p (more ++ steps) deserted := by
  induction more with
  | nil => exact overseen
  | cons step more ih =>
    obtain ⟨first, others⟩ := List.forall_mem_cons.mp begin
    exact (ih others).add first

theorem Overseen.start (core max : Nat) (deserted : Prop) : Overseen (Shared.ofLimits core max : Shared α) [] deserted :=
  ⟨Nat.zero_le _, by simp, by simp, rfl, by simp, fun waiting => absurd rfl waiting⟩

end Overseen

/-- There are never more workers without one being started. -/
theorem Shared.limits_of_perform {p p' : Shared α} {expired : Bool} {step : Step α} {next : List (Next α)}
    (performed : p.perform expired step = some (p', next)) :
    p'.max = p.max ∧ (p'.threads ≤ p.threads ∨ ∃ number, next = [.start number]) := by
  cases step with
  | receive extra =>
    simp only [Shared.perform] at performed
    split at performed
    · cases performed
      exact ⟨rfl, .inl (Nat.le_refl _)⟩
    · split at performed
      · cases performed
        exact ⟨rfl, .inl (Nat.le_refl _)⟩
      · split at performed <;> cases performed
        exact ⟨rfl, .inl (Nat.le_refl _)⟩
  | unpark received => cases received <;> cases performed <;> exact ⟨rfl, .inl (Nat.le_refl _)⟩
  | claim threads =>
    simp only [Shared.perform] at performed
    split at performed <;> cases performed
    · exact ⟨rfl, .inr ⟨threads, rfl⟩⟩
    · exact ⟨rfl, .inl (Nat.le_refl _)⟩
  | retire threads =>
    simp only [Shared.perform] at performed
    split at performed
    · next same =>
      cases performed
      exact ⟨rfl, .inl (same ▸ Nat.sub_le _ _)⟩
    · cases performed
      exact ⟨rfl, .inl (Nat.le_refl _)⟩
  | send | countIdle | consider =>
    simp only [Shared.perform] at performed
    split at performed <;> cases performed <;> exact ⟨rfl, .inl (Nat.le_refl _)⟩
  | countThreads | countQueue | park | choose =>
    cases performed
    exact ⟨rfl, .inl (Nat.le_refl _)⟩
  | stop =>
    cases performed
    exact ⟨rfl, .inl (Nat.sub_le _ _)⟩

/-- What follows a step of the pool. -/
theorem Shared.next_of_perform {p p' : Shared α} {expired : Bool} {step : Step α} {next : List (Next α)}
    (performed : p.perform expired step = some (p', next)) : next = [] ∨ (∃ job, next = [.reject job]) ∨
      (∃ number, next = [.start number]) ∨ (∃ other, next = [.go other]) ∨
        ∃ job, next = [.go .countThreads, .run job, .go .park] := by
  have pairs : ∀ {q : Shared α} {one : List (Next α)}, some (q, one) = some (p', next) → next = one := by
    intro q one same
    cases same
    rfl
  cases step with
  | unpark received => cases received <;> cases performed <;> simp
  | receive extra =>
    simp only [Shared.perform] at performed
    split at performed
    · simp [pairs performed]
    · split at performed
      · simp [pairs performed]
      · split at performed <;> cases performed
        simp
  | send | countIdle | claim | consider | retire =>
    simp only [Shared.perform] at performed
    split at performed <;> simp [pairs performed]
  | countThreads | countQueue | park | choose | stop => simp [pairs performed]

end Immediate

end PeerSubstrate.Executor
