import PeerSubstrate.Executor.Immediate
import PeerSubstrate.Executor.Serialized

/-!
# Who looks after the queues

Whatever threads do with the immediate pool, its counter counts the workers that have their place, and a job that
waits has a worker or somebody who is about to add one (`Immediate.Staffed`). Likewise an item that waits in a
serialized executor has an owner or somebody who is about to look (`Serialized.Attended`). So nothing waits once
nobody has anything left to do.
-/

namespace PeerSubstrate.Executor

variable {α : Type}

namespace Immediate

namespace Step

/-- A worker has this to do while it has its place. -/
def ofWorker : Step α → Bool
  | .park | .choose | .receive _ | .unpark _ | .consider | .retire _ | .stop => true
  | .send _ | .countThreads | .countQueue _ | .countIdle _ _ | .claim _ => false

/-- Whoever has this to do adds a worker, should there be none. -/
def adds : Step α → Bool
  | .countThreads | .countQueue 0 | .countIdle 0 _ | .claim 0 => true
  | _ => false

/-- A worker has found the queue empty and closed. -/
def closes : Step α → Bool
  | .unpark .closed | .stop => true
  | _ => false

end Step

/-- The step of the pool that follows, be it one of a worker that is started. -/
def Next.step? : Next α → Option (Step α)
  | .go step => some step
  | .start _ => some .park
  | .run _ | .reject _ => none

/-- What holds of the pool while `steps` are to be done. -/
structure Staffed (p : Shared α) (steps : List (Step α)) : Prop where
  limits : 1 ≤ p.core ∧ p.core ≤ p.max
  counted : p.threads = steps.countP Step.ofWorker
  extra : ∀ threads, .retire threads ∈ steps → p.core < threads
  closed : (∃ step ∈ steps, step.closes = true) → p.accepting = false ∧ p.queue = []
  served : p.queue ≠ [] → 1 ≤ p.threads ∨ ∃ step ∈ steps, step.adds = true

/-- A step puts `new` steps in the place of its own: what has to be shown of them. -/
theorem Staffed.replace {p p' : Shared α} {step : Step α} {new others : List (Step α)}
    (staffed : Staffed p (step :: others)) (limits : p'.core = p.core ∧ p'.max = p.max)
    (counted : p'.threads + [step].countP Step.ofWorker = p.threads + new.countP Step.ofWorker)
    (extra : ∀ threads, .retire threads ∈ new → p.core < threads)
    (shut : p.accepting = false ∧ p.queue = [] → p'.accepting = false ∧ p'.queue = [])
    (closes : ∀ other ∈ new, other.closes = true → p'.accepting = false ∧ p'.queue = [])
    (served : p'.queue ≠ [] → 1 ≤ p'.threads ∨ (∃ other ∈ new, other.adds = true) ∨
      p.queue ≠ [] ∧ step.adds = false ∧ p.threads ≤ p'.threads) : Staffed p' (new ++ others) := by
  have before := staffed.counted
  rw [List.countP_cons, ← List.countP_singleton] at before
  constructor
  case limits =>
    rw [limits.1, limits.2]
    exact staffed.limits
  case counted =>
    rw [List.countP_append]
    omega
  case extra =>
    intro threads member
    rw [limits.1]
    rcases List.mem_append.mp member with here | there
    · exact extra threads here
    · exact staffed.extra threads (List.mem_cons_of_mem _ there)
  case closed =>
    rintro ⟨other, member, closing⟩
    rcases List.mem_append.mp member with here | there
    · exact closes other here closing
    · exact shut (staffed.closed ⟨other, List.mem_cons_of_mem _ there, closing⟩)
  case served =>
    intro waiting
    rcases served waiting with some | ⟨other, here, adds⟩ | ⟨queued, idle, more⟩
    · exact .inl some
    · exact .inr ⟨other, List.mem_append_left _ here, adds⟩
    · rcases staffed.served queued with some | ⟨other, member, adds⟩
      · exact .inl (by omega)
      · rcases List.mem_cons.mp member with rfl | there
        · simp [idle] at adds
        · exact .inr ⟨other, List.mem_append_right _ there, adds⟩

/-- A worker has its place, so it is one of those that the counter counts. -/
theorem Staffed.working {p : Shared α} {step : Step α} {others : List (Step α)} (staffed : Staffed p (step :: others))
    (works : step.ofWorker = true) : 1 ≤ p.threads := by
  rw [staffed.counted]
  exact List.countP_pos_iff.mpr ⟨step, List.mem_cons_self, works⟩

/-- A worker goes on in its loop and keeps its place. -/
theorem Staffed.loop {p p' : Shared α} {step next : Step α} {others : List (Step α)} (staffed : Staffed p (step :: others))
    (works : step.ofWorker = true ∧ next.ofWorker = true) (limits : p'.core = p.core ∧ p'.max = p.max)
    (threads : p'.threads = p.threads) (extra : ∀ threads, next = .retire threads → p.core < threads)
    (shut : p.accepting = false ∧ p.queue = [] → p'.accepting = false ∧ p'.queue = [])
    (closes : next.closes = true → p'.accepting = false ∧ p'.queue = []) : Staffed p' (next :: others) := by
  have counted : p'.threads + [step].countP Step.ofWorker = p.threads + [next].countP Step.ofWorker := by
    rw [threads, List.countP_singleton, List.countP_singleton, works.1, works.2]
  refine staffed.replace limits counted ?_ shut ?_ fun _ => .inl (threads ▸ staffed.working works.1)
  · intro threads member
    exact extra threads (List.mem_singleton.mp member).symm
  · intro other member
    cases List.mem_singleton.mp member
    exact closes

theorem Staffed.perform {p p' : Shared α} {expired : Bool} {step : Step α} {next : List (Next α)} {others : List (Step α)}
    (staffed : Staffed p (step :: others)) (performed : p.perform expired step = some (p', next)) :
    Staffed p' (next.filterMap Next.step? ++ others) := by
  have limits := staffed.limits
  cases step with
  | send job =>
    simp only [Shared.perform] at performed
    split at performed
    · next accepting =>
      cases performed
      exact staffed.replace ⟨rfl, rfl⟩ rfl (by simp [Next.step?]) (by simp [accepting]) (by simp [Next.step?, Step.closes])
        fun _ => .inr (.inl ⟨.countThreads, by simp [Next.step?], rfl⟩)
    · cases performed
      exact staffed.replace ⟨rfl, rfl⟩ rfl (by simp [Next.step?]) id (by simp [Next.step?])
        fun queued => .inr (.inr ⟨queued, rfl, Nat.le_refl _⟩)
  | countThreads =>
    cases performed
    refine staffed.replace ⟨rfl, rfl⟩ rfl (by simp [Next.step?]) id (by simp [Next.step?, Step.closes]) fun _ => ?_
    -- Whoever counts no worker goes on to add one; a job may wait for one that was counted.
    by_cases none : p.threads = 0
    · exact .inr (.inl ⟨.countQueue 0, by simp [Next.step?, none], rfl⟩)
    · exact .inl (by omega)
  | countQueue threads =>
    cases performed
    refine staffed.replace ⟨rfl, rfl⟩ rfl (by simp [Next.step?]) id (by simp [Next.step?, Step.closes]) fun queued => ?_
    cases threads with
    | zero => exact .inr (.inl ⟨.countIdle 0 p.queue.length, by simp [Next.step?], rfl⟩)
    | succ => exact .inr (.inr ⟨queued, rfl, Nat.le_refl _⟩)
  | countIdle threads queued =>
    simp only [Shared.perform] at performed
    split at performed
    · next enough =>
      cases performed
      refine staffed.replace ⟨rfl, rfl⟩ rfl (by simp) id (by simp) fun queued => ?_
      cases threads with
      | zero => omega
      | succ => exact .inr (.inr ⟨queued, rfl, Nat.le_refl _⟩)
    · cases performed
      refine staffed.replace ⟨rfl, rfl⟩ rfl (by simp [Next.step?]) id (by simp [Next.step?, Step.closes]) fun queued => ?_
      cases threads with
      | zero => exact .inr (.inl ⟨.claim 0, by simp [Next.step?], rfl⟩)
      | succ => exact .inr (.inr ⟨queued, rfl, Nat.le_refl _⟩)
  | claim threads =>
    simp only [Shared.perform] at performed
    split at performed
    · next same =>
      cases performed
      exact staffed.replace ⟨rfl, rfl⟩ (by simp [Next.step?, Step.ofWorker, same]) (by simp [Next.step?]) id
        (by simp [Next.step?, Step.closes]) fun _ => .inl (by simp)
    · cases performed
      exact staffed.replace ⟨rfl, rfl⟩ rfl (by simp [Next.step?]) id (by simp [Next.step?, Step.closes])
        fun _ => .inr (.inl ⟨.countThreads, by simp [Next.step?], rfl⟩)
  | park | choose =>
    cases performed
    exact staffed.loop ⟨rfl, rfl⟩ ⟨rfl, rfl⟩ rfl (by simp) id (by simp [Step.closes])
  | receive extra =>
    simp only [Shared.perform] at performed
    split at performed
    · next queued =>
      cases performed
      exact staffed.loop ⟨rfl, rfl⟩ ⟨rfl, rfl⟩ rfl (by simp) (by simp [queued]) (by simp [Step.closes])
    · next empty =>
      split at performed
      · next closed =>
        cases performed
        exact staffed.loop ⟨rfl, rfl⟩ ⟨rfl, rfl⟩ rfl (by simp) id fun _ => ⟨by simpa using closed, empty⟩
      · split at performed <;> cases performed
        exact staffed.loop ⟨rfl, rfl⟩ ⟨rfl, rfl⟩ rfl (by simp) id (by simp [Step.closes])
  | unpark received =>
    cases received with
    | job =>
      -- The worker looks whether to grow, runs the job and parks again: it counts once.
      cases performed
      exact staffed.replace ⟨rfl, rfl⟩ rfl (by simp [Next.step?]) id (by simp [Next.step?, Step.closes])
        fun _ => .inl (staffed.working rfl)
    | timedOut =>
      cases performed
      exact staffed.loop ⟨rfl, rfl⟩ ⟨rfl, rfl⟩ rfl (by simp) id (by simp [Step.closes])
    | closed =>
      cases performed
      exact staffed.loop ⟨rfl, rfl⟩ ⟨rfl, rfl⟩ rfl (by simp) id fun _ => staffed.closed ⟨_, List.mem_cons_self, rfl⟩
  | consider =>
    simp only [Shared.perform] at performed
    split at performed
    · next extra =>
      cases performed
      exact staffed.loop ⟨rfl, rfl⟩ ⟨rfl, rfl⟩ rfl (by simpa using extra) id (by simp [Step.closes])
    · cases performed
      exact staffed.loop ⟨rfl, rfl⟩ ⟨rfl, rfl⟩ rfl (by simp) id (by simp [Step.closes])
  | retire threads =>
    have extra := staffed.extra threads List.mem_cons_self
    simp only [Shared.perform] at performed
    split at performed
    · next same =>
      -- One worker fewer, and no less than `core` of them.
      cases performed
      refine staffed.replace ⟨rfl, rfl⟩ ?_ (by simp) id (by simp) fun _ => .inl ?_
      · simp only [List.countP_singleton, Step.ofWorker, if_true, List.filterMap_nil, List.countP_nil]
        omega
      · simp only
        omega
    · cases performed
      exact staffed.loop ⟨rfl, rfl⟩ ⟨rfl, rfl⟩ rfl (by simp) id (by simp [Step.closes])
  | stop =>
    have empty := (staffed.closed ⟨_, List.mem_cons_self, rfl⟩).2
    have counted := staffed.working rfl
    cases performed
    refine staffed.replace ⟨rfl, rfl⟩ ?_ (by simp) id (by simp) fun queued => absurd empty queued
    simp only [List.countP_singleton, Step.ofWorker, if_true, List.filterMap_nil, List.countP_nil]
    omega

/-- A submission takes no part in this before its job is queued. -/
theorem Staffed.send {p : Shared α} {steps : List (Step α)} (staffed : Staffed p steps) (job : α) :
    Staffed p (.send job :: steps) := by
  obtain ⟨limits, counted, extra, closed, served⟩ := staffed
  refine ⟨limits, ?_, by simpa using extra, by simpa [Step.closes] using closed, by simpa [Step.adds] using served⟩
  rw [List.countP_cons_of_neg (by simp [Step.ofWorker])]
  exact counted

theorem Staffed.close {p : Shared α} {steps : List (Step α)} (staffed : Staffed p steps) : Staffed p.close steps :=
  ⟨staffed.limits, staffed.counted, staffed.extra, fun closes => ⟨rfl, (staffed.closed closes).2⟩, staffed.served⟩

theorem Staffed.perm {p : Shared α} {steps others : List (Step α)} (staffed : Staffed p steps) (same : steps.Perm others) :
    Staffed p others := by
  obtain ⟨limits, counted, extra, closed, served⟩ := staffed
  refine ⟨limits, counted.trans (same.countP_eq _), ?_, ?_, ?_⟩
  · simpa only [same.mem_iff] using extra
  · simpa only [same.mem_iff] using closed
  · simpa only [same.mem_iff] using served

theorem Staffed.start (core max : Nat) : Staffed (Shared.ofLimits core max : Shared α) [] := by
  constructor
  case limits => exact ⟨Nat.le_max_right core 1, Nat.le_max_right max _⟩
  case counted => rfl
  case extra => simp
  case closed => simp
  case served => simp [Shared.ofLimits]

/-- No job waits once there is nothing left to do. -/
theorem Staffed.queue_eq_nil {p : Shared α} (staffed : Staffed p []) : p.queue = [] := by
  refine Classical.byContradiction fun queued => ?_
  have none := staffed.counted
  rcases staffed.served queued with some | ⟨_, member, _⟩
  · rw [none] at some
    cases some
  · cases member

end Immediate

namespace Serialized

namespace Step

/-- The owner has this to do. -/
def owns : Step α → Bool
  | .receive | .release => true
  | _ => false

/-- Whoever has this to do looks after the queue. -/
def watches : Step α → Bool
  | .retry | .inspect | .regain => true
  | _ => false

end Step

/-- The step of the executor that follows. -/
def Next.step? : Next α → Option (Step α)
  | .go step => some step
  | .work _ => none

/-- What holds of the executor while `steps` are to be done. -/
structure Attended (s : Shared α) (steps : List (Step α)) : Prop where
  owned : s.active = true → ∃ step ∈ steps, step.owns = true
  watched : s.queue ≠ [] → s.active = true ∨ ∃ step ∈ steps, step.watches = true

/-- Whoever queues an item tries to become the owner afterwards. -/
theorem Attended.perform {s : Shared α} {step : Step α} {others : List (Step α)} (attended : Attended s (step :: others))
    (retries : ∀ item, step = .enqueue item → .retry ∈ others) :
    Attended (s.perform step).1 ((s.perform step).2.filterMap Next.step? ++ others) := by
  obtain ⟨owned, watched⟩ := attended
  simp only [List.mem_cons, exists_eq_or_imp] at owned watched
  cases step with
  | acquire item | retry | regain =>
    simp only [Shared.perform]
    split
    · next active => exact ⟨by simpa [Next.step?, Step.owns] using owned, fun _ => .inl active⟩
    · exact ⟨fun _ => ⟨.receive, by simp [Next.step?], rfl⟩, fun _ => .inl rfl⟩
  | enqueue item =>
    refine ⟨by simpa [Shared.perform, Step.owns] using owned, fun _ => .inr ⟨.retry, ?_, rfl⟩⟩
    exact List.mem_append_right _ (retries item rfl)
  | receive =>
    simp only [Shared.perform]
    split
    · next empty => exact ⟨fun _ => ⟨.release, by simp [Next.step?], rfl⟩, fun queued => absurd empty queued⟩
    · next queued =>
      refine ⟨fun _ => ⟨.receive, by simp [Next.step?], rfl⟩, fun _ => ?_⟩
      simpa [queued, Next.step?, Step.watches] using watched
  | release => exact ⟨by simp [Shared.perform], fun _ => .inr ⟨.inspect, by simp [Shared.perform, Next.step?], rfl⟩⟩
  | inspect =>
    simp only [Shared.perform]
    split
    · next empty =>
      refine ⟨by simpa [Step.owns] using owned, fun queued => ?_⟩
      exact absurd (List.isEmpty_iff.mp empty) queued
    · exact ⟨by simpa [Next.step?, Step.owns] using owned, fun _ => .inr ⟨.regain, by simp [Next.step?], rfl⟩⟩

/-- A submission takes no part in this before it has looked for the owner. -/
theorem Attended.acquire {s : Shared α} {steps : List (Step α)} (attended : Attended s steps) (item : α) :
    Attended s (.acquire item :: steps) := by
  obtain ⟨owned, watched⟩ := attended
  exact ⟨by simpa [Step.owns] using owned, by simpa [Step.watches] using watched⟩

theorem Attended.perm {s : Shared α} {steps others : List (Step α)} (attended : Attended s steps)
    (same : steps.Perm others) : Attended s others := by
  obtain ⟨owned, watched⟩ := attended
  constructor
  · simpa only [same.mem_iff] using owned
  · simpa only [same.mem_iff] using watched

/-- No item waits once there is nothing left to do. -/
theorem Attended.queue_eq_nil {s : Shared α} (attended : Attended s []) : s.queue = [] := by
  refine Classical.byContradiction fun queued => ?_
  rcases attended.watched queued with active | ⟨_, member, _⟩
  · obtain ⟨_, member, _⟩ := attended.owned active
    cases member
  · cases member

end Serialized

end PeerSubstrate.Executor
