import Mathlib.Data.List.Nodup
import PeerSubstrate.Proofs.Concurrency.Run
import PeerSubstrate.Proofs.Executor.Submission

/-!
# Serialized execution of submitted items

Along every run of threads that submit items (`Sound`), the owner is the one thread with a look into
the queue before it, a queue without an owner has somebody on the way to look at it again, and every
ticket stands in one place. Hence items run one at a time and in order, none twice and none never
(`serialized`).
-/

namespace PeerSubstrate.Executor.WorkItems
open PeerSubstrate.Concurrency

namespace Instruction

/-- Only the owner has this to do. -/
def owns : Instruction → Bool
  | .call .receive | .call .release => true
  | _ => false

/-- Whoever has this to do looks after the queue. -/
def watches : Instruction → Bool
  | .call .retry | .call .inspect | .call .regain => true
  | _ => false

/-- The ticket of an item that is neither started nor queued. -/
def waiting? : Instruction → Option Nat
  | .call (.acquire item) | .call (.enqueue item) => some item.ticket
  | _ => none

/-- The ticket of an item the thread is inside of. -/
def inside? : Instruction → Option Nat
  | .leave ticket => some ticket
  | _ => none

end Instruction

open Instruction (owns watches waiting? inside?)

/-- The tickets that were drawn, in the order of the submissions. -/
def submitted (seen : List Event) : List Nat :=
  seen.filterMap fun | .submitted ticket => some ticket | _ => none

/-- The tickets of the items that had to wait in the queue, in the order in which they were put there. -/
def queued (seen : List Event) : List Nat :=
  seen.filterMap fun | .queued ticket => some ticket | _ => none

/-- The tickets of the items that started, in that order. -/
def started (seen : List Event) : List Nat :=
  seen.filterMap fun | .started ticket => some ticket | _ => none

/-- The tickets of the items that ended, in that order. -/
def ended (seen : List Event) : List Nat :=
  seen.filterMap fun | .ended ticket => some ticket | _ => none

/-- The tickets of the items that threads are inside of. -/
def inside (s : System State Unit Instruction) : List Nat := s.todo.filterMap inside?

/-- No thread is inside of a call. -/
def Idle (s : System State Unit Instruction) : Prop :=
  ∀ thread ∈ s.threads, ∀ instruction ∈ thread.todo, ∃ script, instruction = .submit script

/-- Threads that are about to submit items, one after another. -/
def submitters (calls : List (List (List Action))) : System State Unit Instruction :=
  ⟨{}, calls.map fun scripts => ⟨(), scripts.map .submit⟩⟩

section Measures

variable (one two : List Event)

@[simp] theorem submitted_append : submitted (one ++ two) = submitted one ++ submitted two := List.filterMap_append

@[simp] theorem queued_append : queued (one ++ two) = queued one ++ queued two := List.filterMap_append

@[simp] theorem started_append : started (one ++ two) = started one ++ started two := List.filterMap_append

@[simp] theorem ended_append : ended (one ++ two) = ended one ++ ended two := List.filterMap_append

variable (item : Item) (rest : List Instruction) (actions : List Action)

@[simp] theorem waiting_acts : actions.filterMap (waiting? ∘ .act) = [] :=
  List.filterMap_eq_nil_iff.mpr fun _ _ => rfl

@[simp] theorem inside_acts : actions.filterMap (inside? ∘ .act) = [] :=
  List.filterMap_eq_nil_iff.mpr fun _ _ => rfl

@[simp] theorem owns_todo : (item.todo rest).countP owns = rest.countP owns + 1 := by
  simp [Item.todo, List.countP_cons, owns]

@[simp] theorem waiting_todo : (item.todo rest).filterMap waiting? = rest.filterMap waiting? := by
  simp [Item.todo, List.filterMap_cons, waiting?]

@[simp] theorem inside_todo : (item.todo rest).filterMap inside? = item.ticket :: rest.filterMap inside? := by
  simp [Item.todo, List.filterMap_cons, inside?]

end Measures

/-- What becomes of the queue while `events` are seen: items that were waiting are put into it, or the
item at its front starts, or an item that was waiting starts without having been in it. -/
inductive Queueing (waiting : List Nat) (events : List Event) : List Item → List Item → Prop
  | put {queue : List Item} (items : List Item) : queued events = items.map Item.ticket → started events = [] →
      (∀ item ∈ items, item.ticket ∈ waiting) → Queueing waiting events queue (queue ++ items)
  | take {item : Item} {queue : List Item} : queued events = [] → started events = [item.ticket] →
      Queueing waiting events (item :: queue) queue
  | pass {ticket : Nat} {queue : List Item} : queued events = [] → started events = [ticket] →
      ticket ∈ waiting → Queueing waiting events queue queue

private theorem Queueing.unchanged {waiting : List Nat} {events : List Event} {queue : List Item}
    (puts : queued events = []) (starts : started events = []) : Queueing waiting events queue queue := by
  have same : Queueing waiting events queue (queue ++ []) := .put [] puts starts (by simp)
  rw [List.append_nil] at same
  exact same

private theorem Queueing.mono {waiting others : List Nat} {events : List Event} {queue queue' : List Item}
    (queueing : Queueing waiting events queue queue') (more : ∀ ticket ∈ waiting, ticket ∈ others) :
    Queueing others events queue queue' := by
  cases queueing with
  | put items puts starts waiting => exact .put items puts starts fun item member => more _ (waiting item member)
  | take puts starts => exact .take puts starts
  | pass puts starts waiting => exact .pass puts starts (more _ waiting)

section Step

variable {s s' : State} {todo todo' : List Instruction} {seen : List Event}

/-- The flag follows the owner. -/
theorem Performs.owned (performs : Performs s todo s' todo' seen)
    (owner : todo.countP owns ≤ s.executor.active.toNat) :
    todo'.countP owns + s.executor.active.toNat = todo.countP owns + s'.executor.active.toNat := by
  cases performs with
  | regain kind => rcases kind with rfl | rfl <;> simp [List.countP_cons, owns]
  | desist kind => rcases kind with rfl | rfl <;> simp [owns]
  | @release active =>
    cases active with
    | false => simp [List.countP_cons, owns] at owner
    | true => simp [List.countP_cons, owns]
  | _ => simp [List.countP_cons, owns, *]

/-- A queue without an owner is looked after: by this thread, unless by another. -/
theorem Performs.watched (performs : Performs s todo s' todo' seen) {elsewhere : Prop}
    (owner : todo.countP owns ≤ s.executor.active.toNat)
    (watched : s.executor.queue ≠ [] → s.executor.active = true ∨ (∃ i ∈ todo, watches i = true) ∨ elsewhere)
    (waiting : s'.executor.queue ≠ []) :
    s'.executor.active = true ∨ (∃ i ∈ todo', watches i = true) ∨ elsewhere := by
  cases performs with
  | acquire => exact .inl rfl
  | regain => exact .inl rfl
  | enqueue => exact .inr (.inl ⟨_, List.mem_cons_self, rfl⟩)
  | release => exact .inr (.inl ⟨_, List.mem_cons_self, rfl⟩)
  | notice => exact .inr (.inl ⟨_, List.mem_cons_self, rfl⟩)
  | desist _ active => exact .inl active
  | refuse active => exact .inl active
  | @receive active =>
    refine .inl ?_
    cases active with
    | false => simp [List.countP_cons, owns] at owner
    | true => rfl
  | drained empty => exact absurd empty waiting
  | content empty => exact absurd empty waiting
  | panic actions =>
    rcases watched waiting with active | ⟨i, member, watching⟩ | other
    · exact .inl active
    · simp only [List.mem_cons, List.mem_append, List.mem_map] at member
      rcases member with rfl | ⟨action, -, rfl⟩ | behind
      · simp [watches] at watching
      · simp [watches] at watching
      · exact .inr (.inl ⟨i, List.mem_cons.mpr behind, watching⟩)
    · exact .inr (.inr other)
  | _ => simpa [watches] using watched waiting

/-- Tickets are drawn in order. -/
theorem Performs.drawn (performs : Performs s todo s' todo' seen) :
    List.range s'.nextTicket = List.range s.nextTicket ++ submitted seen := by
  cases performs <;> simp [submitted, List.range_succ]

/-- A ticket goes from the thread into the queue or into the item. -/
theorem Performs.placed (performs : Performs s todo s' todo' seen) (ticket : Nat) :
    (submitted seen).count ticket + (todo.filterMap waiting?).count ticket +
        (s.executor.queue.map Item.ticket).count ticket =
      (todo'.filterMap waiting?).count ticket + (s'.executor.queue.map Item.ticket).count ticket +
        (started seen).count ticket := by
  cases performs with
  | regain kind => rcases kind with rfl | rfl <;> simp [submitted, started, List.filterMap_cons, waiting?]
  | desist kind => rcases kind with rfl | rfl <;> simp [submitted, started, List.filterMap_cons, waiting?]
  | _ => simp [submitted, started, List.filterMap_cons, waiting?, List.count_cons, *] <;> omega

/-- A started item ends when the thread leaves it. -/
theorem Performs.running (performs : Performs s todo s' todo' seen) (ticket : Nat) :
    (started seen).count ticket + (todo.filterMap inside?).count ticket =
      (todo'.filterMap inside?).count ticket + (ended seen).count ticket := by
  cases performs with
  | regain kind => rcases kind with rfl | rfl <;> simp [ended, started, List.filterMap_cons, inside?]
  | desist kind => rcases kind with rfl | rfl <;> simp [ended, started, List.filterMap_cons, inside?]
  | _ => simp [ended, started, List.filterMap_cons, inside?, List.count_cons, *] <;> omega

/-- The queue grows at its end, or the item at its front starts, or one that never was in it. -/
theorem Performs.queueing (performs : Performs s todo s' todo' seen) :
    Queueing (todo.filterMap waiting?) seen s.executor.queue s'.executor.queue := by
  cases performs with
  | @enqueue _ _ _ item => exact .put [item] rfl rfl (by simp [waiting?])
  | receive => exact .take rfl rfl
  | acquire => exact .pass rfl rfl (by simp [waiting?])
  | _ => exact .unchanged rfl rfl

end Step

/-! ## Every step, every run -/

/-- What holds in every system that threads reach by submitting items, and of what was seen on the way. -/
structure Sound (s : System State Unit Instruction) (seen : List Event) : Prop where
  shaped : ∀ thread ∈ s.threads, Shape thread.todo
  owned : s.todo.countP owns = s.shared.executor.active.toNat
  watched : s.shared.executor.queue ≠ [] → s.shared.executor.active = true ∨ ∃ i ∈ s.todo, watches i = true
  drawn : submitted seen = List.range s.shared.nextTicket
  placed : ∀ ticket, (submitted seen).count ticket = (s.todo.filterMap waiting?).count ticket +
    (s.shared.executor.queue.map Item.ticket).count ticket + (started seen).count ticket
  running : ∀ ticket, (started seen).count ticket = (inside s).count ticket + (ended seen).count ticket
  inOrder : queued seen = (started seen).filter (· ∈ queued seen) ++ s.shared.executor.queue.map Item.ticket

theorem Sound.submitted_once {s : System State Unit Instruction} {seen : List Event} (sound : Sound s seen)
    (ticket : Nat) : (submitted seen).count ticket ≤ 1 := by
  rw [sound.drawn]
  exact List.nodup_iff_count_le_one.mp List.nodup_range ticket

/-- What is waiting was never queued, nor has it started. -/
theorem Sound.new_of_waiting {s : System State Unit Instruction} {seen : List Event} (sound : Sound s seen)
    {ticket : Nat} (waiting : ticket ∈ s.todo.filterMap waiting?) : ticket ∉ queued seen ∧ ticket ∉ started seen := by
  have once := sound.submitted_once ticket
  have placed := sound.placed ticket
  have here := List.count_pos_iff.mpr waiting
  have notStarted : ticket ∉ started seen := by
    intro begun
    have there := List.count_pos_iff.mpr begun
    omega
  refine ⟨?_, notStarted⟩
  rw [sound.inOrder, List.mem_append]
  rintro (begun | inQueue)
  · exact notStarted (List.mem_filter.mp begun).1
  · have there := List.count_pos_iff.mpr inQueue
    omega

/-- The order of the queue survives a step. -/
theorem Sound.inOrder_step {s : System State Unit Instruction} {seen events : List Event} {queue : List Item}
    (sound : Sound s seen) (queueing : Queueing (s.todo.filterMap waiting?) events s.shared.executor.queue queue) :
    queued (seen ++ events) =
      (started (seen ++ events)).filter (· ∈ queued (seen ++ events)) ++ queue.map Item.ticket := by
  have inOrder := sound.inOrder
  rw [queued_append, started_append]
  generalize s.shared.executor.queue = before at queueing inOrder
  cases queueing with
  | put items puts starts waiting =>
    have others : (started seen).filter (· ∈ queued seen ++ items.map Item.ticket) =
        (started seen).filter (· ∈ queued seen) := by
      refine List.filter_congr fun ticket begun => ?_
      have new : ticket ∉ items.map Item.ticket := by
        intro member
        obtain ⟨item, isItem, rfl⟩ := List.mem_map.mp member
        exact (sound.new_of_waiting (waiting item isItem)).2 begun
      simp [new]
    rw [puts, starts, List.append_nil, others, List.map_append, ← List.append_assoc, ← inOrder]
  | @take item queue puts starts =>
    have known : item.ticket ∈ queued seen := by
      rw [inOrder]
      simp
    rw [puts, starts, List.append_nil, List.filter_append, List.filter_cons_of_pos (by simpa using known),
      List.append_assoc]
    exact inOrder
  | @pass ticket queue puts starts waiting =>
    have new := (sound.new_of_waiting waiting).1
    rw [puts, starts, List.append_nil, List.filter_append, List.filter_cons_of_neg (by simpa using new),
      List.filter_nil, List.append_nil]
    exact inOrder

/-- Every step of a thread keeps a system sound. -/
theorem Sound.step {before after : List (Thread Unit Instruction)} {own : Unit} {instruction : Instruction}
    {rest : List Instruction} {effect : Effect State Unit Instruction Event} {released : Bool} {shared : State}
    {seen : List Event} (sound : Sound ⟨shared, before ++ ⟨own, instruction :: rest⟩ :: after⟩ seen)
    (performed : machine.perform released before.length shared own instruction rest = some effect) :
    Sound ⟨effect.shared, before ++ effect.thread :: (after ++ effect.started)⟩ (seen ++ effect.events) := by
  obtain ⟨performs, shape, none⟩ := performs (sound.shaped ⟨own, instruction :: rest⟩ (by simp)) performed
  have todoBefore : System.todo ⟨shared, before ++ ⟨own, instruction :: rest⟩ :: after⟩ =
      before.flatMap Thread.todo ++ ((instruction :: rest) ++ after.flatMap Thread.todo) := by simp [System.todo]
  have todoAfter : System.todo ⟨effect.shared, before ++ effect.thread :: (after ++ effect.started)⟩ =
      before.flatMap Thread.todo ++ (effect.thread.todo ++ after.flatMap Thread.todo) := by simp [System.todo, none]
  have owned := sound.owned
  simp only [todoBefore, List.countP_append] at owned
  have owner : (instruction :: rest).countP owns ≤ shared.executor.active.toNat := by omega
  constructor
  case shaped =>
    intro thread member
    simp only [none, List.append_nil, List.mem_append, List.mem_cons] at member
    rcases member with member | rfl | member
    · exact sound.shaped thread (by simp [member])
    · exact shape
    · exact sound.shaped thread (by simp [member])
  case owned =>
    have changed := performs.owned owner
    simp only [todoAfter, List.countP_append]
    omega
  case watched =>
    intro waiting
    have watched := sound.watched
    simp only [todoBefore, List.mem_append, or_and_right, exists_or] at watched
    simp only [todoAfter, List.mem_append, or_and_right, exists_or]
    rw [or_left_comm (a := ∃ i, i ∈ before.flatMap Thread.todo ∧ _)] at watched ⊢
    exact performs.watched owner watched waiting
  case drawn =>
    rw [performs.drawn, ← sound.drawn, submitted_append]
  case placed =>
    intro ticket
    have placed := sound.placed ticket
    have moved := performs.placed ticket
    simp only [todoBefore, List.filterMap_append, List.count_append] at placed
    simp only [todoAfter, submitted_append, started_append, List.filterMap_append, List.count_append]
    omega
  case running =>
    intro ticket
    have running := sound.running ticket
    have moved := performs.running ticket
    simp only [inside, todoBefore, List.filterMap_append, List.count_append] at running
    simp only [inside, todoAfter, started_append, ended_append, List.filterMap_append, List.count_append]
    omega
  case inOrder =>
    refine sound.inOrder_step (performs.queueing.mono fun ticket member => ?_)
    rw [todoBefore, List.filterMap_append, List.filterMap_append]
    exact List.mem_append_right _ (List.mem_append_left _ member)

theorem idle_iff {s : System State Unit Instruction} : Idle s ↔ ∀ i ∈ s.todo, ∃ script, i = .submit script := by
  simp only [Idle, System.todo, List.mem_flatMap]
  constructor
  · rintro idle i ⟨thread, member, here⟩
    exact idle thread member i here
  · intro idle thread member i here
    exact idle i ⟨thread, member, here⟩

/-- Where no thread is inside of a call, nobody owns, waits, watches or is inside of an item. -/
theorem Idle.quiet {s : System State Unit Instruction} (idle : Idle s) :
    s.todo.countP owns = 0 ∧ s.todo.filterMap waiting? = [] ∧ inside s = [] ∧ ∀ i ∈ s.todo, watches i = false := by
  have only := idle_iff.mp idle
  refine ⟨List.countP_eq_zero.mpr fun i member => ?_, List.filterMap_eq_nil_iff.mpr fun i member => ?_,
    List.filterMap_eq_nil_iff.mpr fun i member => ?_, fun i member => ?_⟩
  all_goals
    obtain ⟨script, rfl⟩ := only i member
    simp [owns, waiting?, inside?, watches]

theorem submitters_idle (calls : List (List (List Action))) : Idle (submitters calls) := by
  intro thread member i here
  obtain ⟨scripts, -, rfl⟩ := List.mem_map.mp member
  obtain ⟨script, -, rfl⟩ := List.mem_map.mp here
  exact ⟨script, rfl⟩

private theorem shape_submits (scripts : List (List Action)) : Shape (scripts.map .submit) := by
  induction scripts with
  | nil => trivial
  | cons script scripts ih => exact ⟨trivial, ih⟩

theorem Sound.start (calls : List (List (List Action))) : Sound (submitters calls) [] := by
  obtain ⟨owned, waiting, inside, -⟩ := (submitters_idle calls).quiet
  constructor
  case shaped =>
    intro thread member
    obtain ⟨scripts, -, rfl⟩ := List.mem_map.mp member
    exact shape_submits scripts
  case owned => exact owned
  case watched => exact fun queue => absurd rfl queue
  case drawn => rfl
  case placed =>
    intro ticket
    rw [waiting]
    rfl
  case running =>
    intro ticket
    rw [inside]
    rfl
  case inOrder => rfl

theorem Sound.of_run {calls : List (List (List Action))} {s : System State Unit Instruction} {seen : List Event}
    (run : machine.Run (submitters calls) s seen) : Sound s seen :=
  run.invariant (Sound.start calls) Sound.step

/-! ## What submitters can rely on -/

/-- A thread is inside of an item only as the owner. -/
theorem Shape.inside_le_owns : ∀ {todo : List Instruction}, Shape todo →
    (todo.filterMap inside?).length ≤ todo.countP owns
  | [], _ => Nat.le_refl 0
  | .leave ticket :: rest, ⟨⟨behind, same⟩, shape⟩ => by
    subst same
    have others := inside_le_owns shape.2
    simp only [List.filterMap_cons, inside?, List.countP_cons, owns, List.length_cons]
    simp only [if_true, Bool.false_eq_true, if_false]
    omega
  | .submit script :: rest, ⟨_, shape⟩ => by
    have others := inside_le_owns shape
    simpa [List.filterMap_cons, inside?, owns] using others
  | .act action :: rest, ⟨_, shape⟩ => by
    have others := inside_le_owns shape
    simpa [List.filterMap_cons, inside?, owns] using others
  | .call step :: rest, ⟨_, shape⟩ => by
    have others := inside_le_owns shape
    simp only [List.filterMap_cons, inside?, List.countP_cons]
    omega
termination_by todo => todo.length

private theorem inside_le_owns {s : System State Unit Instruction} (shaped : ∀ thread ∈ s.threads, Shape thread.todo) :
    (inside s).length ≤ s.todo.countP owns := by
  rw [inside, System.todo]
  revert shaped
  induction s.threads with
  | nil => exact fun _ => Nat.le_refl 0
  | cons thread threads ih =>
    intro shaped
    obtain ⟨shape, shaped⟩ := List.forall_mem_cons.mp shaped
    have first := shape.inside_le_owns
    have others := ih shaped
    rw [List.flatMap_cons, List.filterMap_append, List.length_append, List.countP_append]
    omega

/-- Threads submit items to one executor in any number and interleaving. Tickets tell the items apart. At
most one thread is inside of an item, no item starts twice, and items from the queue start in its order;
and where no thread is inside of a call, nobody owns the executor, the queue is empty, and every item was
executed exactly once. -/
theorem serialized {calls : List (List (List Action))} {s : System State Unit Instruction} {seen : List Event}
    (run : machine.Run (submitters calls) s seen) :
    (submitted seen).Nodup ∧
    (inside s).length ≤ 1 ∧
    (started seen).Nodup ∧
    (started seen).filter (· ∈ queued seen) <+: queued seen ∧
    (Idle s → s.shared.executor.active = false ∧ s.shared.executor.queue = [] ∧
      ∀ ticket ∈ submitted seen, (started seen).count ticket = 1 ∧ (ended seen).count ticket = 1) := by
  have sound := Sound.of_run run
  refine ⟨List.nodup_iff_count_le_one.mpr sound.submitted_once, ?_, ?_, ?_, ?_⟩
  · have owned := sound.owned
    have bound := inside_le_owns sound.shaped
    have flag := Bool.toNat_le s.shared.executor.active
    omega
  · refine List.nodup_iff_count_le_one.mpr fun ticket => ?_
    have once := sound.submitted_once ticket
    have placed := sound.placed ticket
    omega
  · exact ⟨_, sound.inOrder.symm⟩
  · intro idle
    obtain ⟨owned, waiting, inside, watches⟩ := idle.quiet
    have free : s.shared.executor.active = false := by
      rw [sound.owned] at owned
      exact Bool.toNat_eq_zero.mp owned
    have empty : s.shared.executor.queue = [] := by
      by_contra queue
      rcases sound.watched queue with active | ⟨i, member, watching⟩
      · simp [free] at active
      · simp [watches i member] at watching
    refine ⟨free, empty, fun ticket drawn => ?_⟩
    have once := sound.submitted_once ticket
    have placed := sound.placed ticket
    have running := sound.running ticket
    have some := List.count_pos_iff.mpr drawn
    simp only [waiting, empty, inside, List.map_nil, List.count_nil] at placed running
    omega

/-- One thread is inside of an item, in which it submits another one that panics; meanwhile a second thread
queues an item and comes to its second attempt only after the first thread has drained the queue. -/
theorem serialized_contended : ∃ s seen,
    machine.Run (submitters [[[.log "outer", .submit [.panic "inner"]]], [[]]]) s seen ∧
      Idle s ∧ queued seen = [1, 2] ∧ submitted seen = [0, 1, 2] ∧ s.shared.executor.queue = [] ∧
      ∀ ticket ∈ submitted seen, (started seen).count ticket = 1 ∧ (ended seen).count ticket = 1 := by
  have followed : machine.follow (([0, 0, 1, 1, 1] ++ List.replicate 15 0 ++ List.replicate 4 1).map (true, ·))
      (submitters [[[.log "outer", .submit [.panic "inner"]]], [[]]], []) =
      some (⟨⟨{}, 3⟩, [⟨(), []⟩, ⟨(), []⟩]⟩, [.submitted 0, .started 0, .submitted 1, .queued 1, .logged "outer",
        .submitted 2, .queued 2, .ended 0, .started 1, .ended 1, .started 2, .ended 2]) := by cbv
  have run := Machine.run_of_follow .start followed
  have idle : Idle ⟨⟨{}, 3⟩, [⟨(), []⟩, ⟨(), []⟩]⟩ := by simp [Idle]
  obtain ⟨-, -, -, -, atRest⟩ := serialized run
  exact ⟨_, _, run, idle, rfl, rfl, rfl, (atRest idle).2.2⟩

end PeerSubstrate.Executor.WorkItems
