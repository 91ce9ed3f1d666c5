import Mathlib.Logic.Relation
import PeerSubstrate.Proofs.Executor.Charge
import PeerSubstrate.Proofs.Executor.Generations

/-!
# Breadth-first execution

A submission to an executor that nobody uses performs its item and all that it leads to, generation by generation, and
returns; while a thread stays inside of an item, it is left with what others submit, and with what that leads to
(`breadth_first`).
-/

namespace PeerSubstrate.Executor.WorkItems
open PeerSubstrate.Concurrency
open Instruction (owns waiting? inside?)

/-- A thread with this to do next is inside of an item, and not in the middle of a call. -/
def Instruction.ofItem : Instruction → Bool
  | .act _ | .leave _ => true
  | .submit _ | .call _ => false

/-- What an observer sees of a submission whose item leads to the given number of generations, its own one included,
while nobody else uses the executor. -/
def execution (script : List Action) (count first : Nat) : List Event :=
  .submitted first :: history (generations [script] count) first (first + 1)

/-- Every item starts and ends once, in the order of the submissions. -/
theorem seen_of_execution {script : List Action} {count : Nat} (last : nextGeneration^[count] [script] = []) (first : Nat) :
    submitted (execution script count first) = List.range' first (generations [script] count).length ∧
      started (execution script count first) = List.range' first (generations [script] count).length ∧
      ended (execution script count first) = List.range' first (generations [script] count).length := by
  refine ⟨?_, started_history _ _ _, ended_history _ _ _⟩
  have number : (generations [script] count).length = (nextGeneration (generations [script] count)).length + 1 := by
    have all := congrArg List.length (generations_eq last)
    rw [List.length_append, List.length_singleton, Nat.add_comm] at all
    exact all
  have drawn := submitted_history (generations [script] count) first (first + 1)
  rw [number, List.range'_succ, ← drawn]
  rfl

section Alone

variable {calls : List (List (List Action))} {s t u : System State Unit Instruction} {past seen all : List Event}

private theorem Sound.at_rest (sound : Sound s past) (idle : Idle s) : s.shared.executor = {} := by
  obtain ⟨owned, -, -, watches⟩ := idle.quiet
  have free : s.shared.executor.active = false := by
    rw [sound.owned] at owned
    exact Bool.toNat_eq_zero.mp owned
  have empty : s.shared.executor.queue = [] := by
    by_contra queue
    rcases sound.watched queue with active | ⟨i, member, watching⟩
    · simp [free] at active
    · simp [watches i member] at watching
  exact congrArg₂ Serialized.Shared.mk free empty

/-- Where no item is on its way into the queue, the items that have not started are in it. -/
theorem Sound.pending (sound : Sound s past) (none : s.todo.filterMap waiting? = []) :
    (started past).length + s.shared.executor.queue.length = (submitted past).length := by
  have same : (submitted past).Perm (started past ++ s.shared.executor.queue.map Item.ticket) := by
    refine List.perm_iff_count.mpr fun ticket => ?_
    have placed := sound.placed ticket
    rw [none, List.count_nil] at placed
    rw [List.count_append]
    omega
  have lengths := same.length_eq
  rw [List.length_append, List.length_map] at lengths
  exact lengths.symm

/-- The others stay where they are. -/
theorem todoOf_of_follow {i p : Nat} {worlds : List Bool} (run : machine.Run (submitters calls) s past) (apart : p ≠ i)
    (followed : machine.follow (worlds.map (·, i)) (s, seen) = some (u, all)) : u.todoOf p = s.todoOf p := by
  induction worlds generalizing s past seen with
  | nil =>
    cases followed
    rfl
  | cons released worlds ih =>
    obtain ⟨⟨t, events⟩, stepped, followed⟩ := Option.bind_eq_some_iff.mp followed
    have moves := moves_of_step (Sound.of_run run).shaped stepped
    exact (ih (run.step released i stepped) followed).trans (moves.others apart)

/-- Inside of an item the executor is owned. -/
theorem Sound.active_of_leave (sound : Sound s past) {o ticket : Nat} (within : .leave ticket ∈ s.todoOf o) :
    s.shared.executor.active = true :=
  (sound.alone ((sound.shape o).receive_of_leave within)).1

/-- The thread that has the executor to itself performs its item and all that it leads to, and returns. -/
theorem submission_alone {i : Nat} {script : List Action} {rest : List Instruction} (sound : Sound s past) (idle : Idle s)
    (todo : s.todoOf i = .submit script :: rest) (passes : NeverWaits script) : ∃ steps count,
      nextGeneration^[count] [script] = [] ∧ ∀ worlds : List Bool, worlds.length = steps →
        machine.follow (worlds.map (·, i)) (s, []) =
          some (⟨⟨{}, s.shared.nextTicket + (generations [script] count).length⟩, s.threads.set i ⟨(), rest⟩⟩,
            execution script count s.shared.nextTicket) := by
  obtain ⟨_, found⟩ := System.getElem?_of_todoOf todo
  obtain ⟨before, after, threads, rfl⟩ := split_of_getElem? found
  obtain ⟨count, last, steps, comes⟩ := Comes.submission before after rest passes s.shared.nextTicket
  have here : s = ⟨⟨{}, s.shared.nextTicket⟩, before ++ ⟨(), .submit script :: rest⟩ :: after⟩ := by
    rw [← threads, ← sound.at_rest idle]
  have there : s.threads.set before.length ⟨(), rest⟩ = before ++ ⟨(), rest⟩ :: after := by
    rw [threads]
    simp
  refine ⟨steps, count, last, fun worlds length => ?_⟩
  have followed := comes worlds length []
  rw [← here, ← there] at followed
  exact followed

/-- Between its calls an item finds the executor owned, and in the queue what has been submitted and not started. -/
theorem inside_alone {i : Nat} {worlds : List Bool} {instruction : Instruction} {todo : List Instruction}
    (run : machine.Run (submitters calls) s past) (idle : Idle s)
    (followed : machine.follow (worlds.map (·, i)) (s, []) = some (u, seen)) (inside : u.todoOf i = instruction :: todo)
    (ofItem : instruction.ofItem = true) : u.shared.executor.active = true ∧
      (started seen).length + u.shared.executor.queue.length = (submitted seen).length := by
  have whole := run.trans (Machine.run_of_follow .start followed)
  have sound := Sound.of_run whole
  have within : ∃ ticket, .leave ticket ∈ u.todoOf i := by
    have shape := inside ▸ sound.shape i
    cases instruction with
    | act action =>
      obtain ⟨actions, ticket, behind, rfl, -, -⟩ := shape.panic
      exact ⟨ticket, inside ▸ List.mem_cons_of_mem _ (List.mem_append_right _ List.mem_cons_self)⟩
    | leave ticket => exact ⟨ticket, inside ▸ List.mem_cons_self⟩
    | submit | call => cases ofItem
  have none : u.todo.filterMap waiting? = [] := by
    refine List.filterMap_eq_nil_iff.mpr fun waiting member => ?_
    obtain ⟨p, here⟩ := System.mem_todo_iff.mp member
    by_cases same : p = i
    · subst same
      obtain ⟨noted, attributed, -⟩ := whole.attribute
      have fronted := fronted_of_run attributed p
      rw [inside] at fronted here
      rcases List.mem_cons.mp here with rfl | behind
      · cases waiting with
        | act | leave => rfl
        | submit | call => cases ofItem
      · exact fronted waiting behind
    · rw [todoOf_of_follow run same followed] at here
      obtain ⟨script, rfl⟩ := idle_iff.mp idle waiting (System.mem_todo_iff.mpr ⟨p, here⟩)
      rfl
  obtain ⟨ticket, within⟩ := within
  refine ⟨sound.active_of_leave within, ?_⟩
  have before := (Sound.of_run run).pending idle.quiet.2.1
  have now := sound.pending none
  rw [(Sound.of_run run).at_rest idle, List.length_nil] at before
  rw [started_append, submitted_append, List.length_append, List.length_append] at now
  omega

end Alone

section Others

variable {calls : List (List (List Action))} {s t u : System State Unit Instruction}
  {past meanwhile later : List (Nat × Event)}

/-- Behind a look into the queue there is no other one, and no end of an item. -/
theorem Sound.last_look {seen : List Event} (sound : Sound s seen) {o : Nat} {inner rest : List Instruction}
    (todo : s.todoOf o = inner ++ .call .receive :: rest) : .call .receive ∉ rest ∧ ∀ ticket, .leave ticket ∉ rest := by
  have shape := sound.shape o
  have owner := Nat.le_trans (sound.owner o) (Bool.toNat_le _)
  rw [todo] at shape owner
  have none : .call .receive ∉ rest := by
    intro another
    have some : 0 < rest.countP owns := List.countP_pos_iff.mpr ⟨_, another, rfl⟩
    rw [List.countP_append, List.countP_cons_of_pos rfl] at owner
    omega
  exact ⟨none, fun ticket within => none (shape.behind.2.receive_of_leave within)⟩

/-- What comes once and comes later has not come before. -/
theorem not_mem_of_once {before after : List Nat} {y : Nat} (once : (before ++ after).count y ≤ 1) (late : y ∈ after) :
    y ∉ before := by
  intro early
  have one := List.count_pos_iff.mpr early
  have another := List.count_pos_iff.mpr late
  rw [List.count_append] at once
  omega

private theorem started_of_mem {trace : List (Nat × Event)} {o y : Nat} (begun : (o, .started y) ∈ trace) :
    y ∈ started (trace.map Prod.snd) :=
  mem_started.mpr (List.mem_map_of_mem begun)

/-- A ticket is started by one thread. -/
theorem starter_unique {trace : List (Nat × Event)} {o p y : Nat} (once : (started (trace.map Prod.snd)).count y ≤ 1)
    (mine : (o, .started y) ∈ trace) (theirs : (p, .started y) ∈ trace) : p = o := by
  obtain ⟨before, after, rfl⟩ := List.append_of_mem mine
  have here : started (.started y :: after.map Prod.snd) = y :: started (after.map Prod.snd) := rfl
  rw [List.map_append, started_append, List.map_cons, here, List.count_append, List.count_cons_self] at once
  rcases List.mem_append.mp theirs with early | late
  · have another := List.count_pos_iff.mpr (started_of_mem early)
    omega
  · rcases List.mem_cons.mp late with same | late
    · exact congrArg Prod.fst same
    · have another := List.count_pos_iff.mpr (started_of_mem late)
      omega

/-- What has started or is queued has been submitted. -/
theorem Sound.submitted_of {seen : List Event} (sound : Sound s seen) {z : Nat}
    (known : z ∈ started seen ∨ z ∈ s.shared.executor.queue.map Item.ticket) : z ∈ submitted seen := by
  have placed := sound.placed z
  simp only [← List.count_pos_iff] at known ⊢
  omega

/-- A thread that is not inside of an item has ended those that it has started. -/
theorem ended_of_started {o y : Nat} (run : machine.attributed.Run (submitters calls) u (past ++ later))
    (outside : ∀ ticket, .leave ticket ∉ u.todoOf o) (begun : (o, .started y) ∈ later) : (o, .ended y) ∈ later := by
  obtain ⟨before, inside, rfl⟩ := List.append_of_mem begun
  by_contra unended
  refine outside y (leave_of_within run ⟨past ++ before, inside, (List.append_assoc ..).symm, fun gone => unended ?_⟩)
  exact List.mem_append_right _ (List.mem_cons_of_mem _ gone)

/-- What is submitted inside of an item that thread `o` has started from some place on, it has started from there on, if
it is no longer in charge. -/
theorem Submits.started_by {o y z : Nat} (first : machine.attributed.Run (submitters calls) t past)
    (run : machine.attributed.Run t u later) (left : .call .receive ∉ u.todoOf o) (begun : (o, .started y) ∈ later)
    (submits : Submits (past ++ later) y z) : (o, .started z) ∈ later ∧ z ∉ submitted (past.map Prod.snd) := by
  have sound := Sound.of_run first.of_attributed
  have whole := Sound.of_run (first.trans run).of_attributed
  obtain ⟨p, before, after, same, within⟩ := submits
  have there : (p, .started y) ∈ before := by
    obtain ⟨early, inside, rfl, -⟩ := within
    exact List.mem_append_right _ List.mem_cons_self
  have mine : p = o := starter_unique (whole.started_once y) (List.mem_append_right _ begun)
    (same ▸ List.mem_append_left _ there)
  subst mine
  have submits : (p, .submitted z) ∈ later := by
    rcases List.append_eq_append_iff.mp same with ⟨early, -, late⟩ | ⟨rest, early, -⟩
    · exact late ▸ List.mem_append_right _ List.mem_cons_self
    · -- The item would have started before and after.
      have once := whole.started_once y
      have old : (p, .started y) ∈ past := early ▸ List.mem_append_left _ there
      rw [List.map_append, started_append] at once
      exact absurd (started_of_mem old) (not_mem_of_once once (started_of_mem begun))
  have new : z ∉ submitted (past.map Prod.snd) := by
    have once := whole.submitted_once z
    rw [List.map_append, submitted_append] at once
    exact not_mem_of_once once (mem_submitted.mpr (List.mem_map_of_mem submits))
  refine ⟨?_, new⟩
  rcases started_of_submitsBy (first.trans run) ⟨before, after, same, within⟩ with begun | awaits
  · exact (List.mem_append.mp begun).resolve_left fun old => new (sound.submitted_of (.inl (started_of_mem old)))
  · exact absurd awaits.1 left

/-- While thread `o` stays inside of an item, nothing starts, and what others submit is queued or on its way there. -/
theorem queued_meanwhile {o x : Nat} (first : machine.attributed.Run (submitters calls) s past)
    (stay : machine.attributed.Run s t meanwhile) (entered : .leave x ∈ s.todoOf o) (within : .leave x ∈ t.todoOf o) :
    t.shared.executor.queue.map Item.ticket =
        s.shared.executor.queue.map Item.ticket ++ queued (meanwhile.map Prod.snd) ∧
      ∀ y ∈ submitted (meanwhile.map Prod.snd), y ∈ queued (meanwhile.map Prod.snd) ∨ y ∈ t.todo.filterMap waiting? := by
  have sound := Sound.of_run (first.trans stay).of_attributed
  have unended := sound.not_ended within
  rw [List.map_append] at sound unended
  obtain ⟨-, none, account⟩ :=
    (engaged_of_run first stay entered).resolve_right fun gone => unended (List.mem_append_right _ gone)
  refine ⟨account, fun y drawn => ?_⟩
  have new : y ∉ submitted (past.map Prod.snd) := by
    have once := sound.submitted_once y
    rw [submitted_append] at once
    exact not_mem_of_once once drawn
  have before := Sound.of_run first.of_attributed
  have placed := sound.placed y
  have notStarted : (started (past.map Prod.snd)).count y = 0 :=
    List.count_eq_zero.mpr fun old => new (before.submitted_of (.inl old))
  have notQueued : (s.shared.executor.queue.map Item.ticket).count y = 0 :=
    List.count_eq_zero.mpr fun old => new (before.submitted_of (.inr old))
  have here := List.count_pos_iff.mpr drawn
  rw [submitted_append, started_append, none, List.append_nil, account, List.count_append, List.count_append, notStarted,
    notQueued] at placed
  simp only [← List.count_pos_iff]
  omega

end Others

/-- An executor that threads submit items to in any number and interleaving. A thread whose submission finds it idle,
and that has it to itself, performs the item and the items whose submission is reached, all of them, generation by
generation in the order of their submission, one after another and each of them once, and returns and leaves the
executor as it was; inside of an item, the executor is owned, and between the calls that the item makes its queue
holds the items that have been submitted and not started. While a thread stays inside of an item, what anybody submits
is queued or on its way into the queue; when the thread's own submission has returned, it has performed what was queued
before and what was queued meanwhile, in the order in which it was put into the queue, and behind that what it led to. -/
theorem breadth_first {calls : List (List (List Action))} {s : System State Unit Instruction} {past : List (Nat × Event)}
    (run : machine.attributed.Run (submitters calls) s past) :
    (Idle s → ∀ {i script rest}, s.todoOf i = .submit script :: rest → NeverWaits script →
      (∃ steps count, nextGeneration^[count] [script] = [] ∧
        (∀ worlds : List Bool, worlds.length = steps → machine.follow (worlds.map (·, i)) (s, []) =
          some (⟨⟨{}, s.shared.nextTicket + (generations [script] count).length⟩, s.threads.set i ⟨(), rest⟩⟩,
            execution script count s.shared.nextTicket)) ∧
        let tickets := List.range' s.shared.nextTicket (generations [script] count).length
        submitted (execution script count s.shared.nextTicket) = tickets ∧
        started (execution script count s.shared.nextTicket) = tickets ∧
        ended (execution script count s.shared.nextTicket) = tickets) ∧
      ∀ {worlds : List Bool} {u seen}, machine.follow (worlds.map (·, i)) (s, []) = some (u, seen) →
        (∀ ticket, .leave ticket ∈ u.todoOf i → u.shared.executor.active = true) ∧
        ∀ instruction todo, u.todoOf i = instruction :: todo → instruction.ofItem = true →
          u.shared.executor.active = true ∧
          (started seen).length + u.shared.executor.queue.length = (submitted seen).length) ∧
    ∀ {o x inner rest t u meanwhile later}, s.todoOf o = inner ++ .leave x :: .call .receive :: rest →
      machine.attributed.Run s t meanwhile → .leave x ∈ t.todoOf o → machine.attributed.Run t u later → u.todoOf o = rest →
      (∀ y ∈ submitted (meanwhile.map Prod.snd),
        y ∈ queued (meanwhile.map Prod.snd) ∨ y ∈ t.todo.filterMap waiting?) ∧
      ∃ behind, started (later.map Prod.snd) =
          s.shared.executor.queue.map Item.ticket ++ queued (meanwhile.map Prod.snd) ++ behind ∧
        ∀ y ∈ queued (meanwhile.map Prod.snd), (o, .ended y) ∈ later ∧
          ∀ z, Relation.TransGen (Submits (past ++ meanwhile ++ later)) y z → z ∈ behind ∧ (o, .ended z) ∈ later := by
  refine ⟨fun idle i script rest todo passes => ⟨?_, fun {worlds u seen} followed => ⟨?_, ?_⟩⟩, ?_⟩
  · have sound := Sound.of_run run.of_attributed
    obtain ⟨steps, count, last, alone⟩ := submission_alone sound idle todo passes
    exact ⟨steps, count, last, alone, seen_of_execution last _⟩
  · intro ticket within
    exact (Sound.of_run (run.of_attributed.trans (Machine.run_of_follow .start followed))).active_of_leave within
  · intro instruction todo inside ofItem
    exact inside_alone run.of_attributed idle followed inside ofItem
  · intro o x inner rest t u meanwhile later entered stay within onward back
    have reached := run.trans stay
    have charge : .call .receive ∈ t.todoOf o := ((Sound.of_run reached.of_attributed).shape o).receive_of_leave within
    have split : s.todoOf o = (inner ++ [.leave x]) ++ .call .receive :: rest := by
      rw [entered, List.append_assoc, List.singleton_append]
    obtain ⟨noLook, noItem⟩ := (Sound.of_run run.of_attributed).last_look split
    obtain ⟨account, onItsWay⟩ := queued_meanwhile run stay (entered ▸ List.mem_append_right _ List.mem_cons_self) within
    obtain ⟨mine, behind, order⟩ :=
      (served_of_run reached onward charge).resolve_left fun ⟨charge, _⟩ => noLook (back ▸ charge)
    rw [← back] at noLook noItem
    have ends {y : Nat} (begun : (o, .started y) ∈ later) : (o, .ended y) ∈ later :=
      ended_of_started (reached.trans onward) noItem begun
    refine ⟨onItsWay, behind, account ▸ order.symm, fun y member => ?_⟩
    have begun : (o, .started y) ∈ later := mine y (account ▸ List.mem_append_right _ member)
    refine ⟨ends begun, fun z descends => ?_⟩
    have after : (o, .started z) ∈ later ∧ z ∉ submitted ((past ++ meanwhile).map Prod.snd) := by
      induction descends with
      | single submits => exact Submits.started_by reached onward noLook begun submits
      | tail _ submits ih => exact Submits.started_by reached onward noLook ih.1 submits
    refine ⟨?_, ends after.1⟩
    have begun := started_of_mem after.1
    rw [← order] at begun
    exact (List.mem_append.mp begun).resolve_left fun old =>
      after.2 ((Sound.of_run reached.of_attributed).submitted_of (.inr old))

/-- An item panics after having submitted another one. It leads to two generations; and if a second thread queues an item
while the first one is inside of its own, the first one performs that, and what it submits. -/
theorem breadth_first_contended :
    (∃ steps count, nextGeneration^[count] [[.submit [.log "inner"], .panic "outer"]] = [] ∧
      ∀ worlds : List Bool, worlds.length = steps →
        machine.follow (worlds.map (·, 0)) (submitters [[[.submit [.log "inner"], .panic "outer"]], [[.submit []]]], []) =
          some (⟨⟨{}, 0 + (generations [[.submit [.log "inner"], .panic "outer"]] count).length⟩,
            [⟨(), []⟩, ⟨(), [.submit [.submit []]]⟩]⟩, execution [.submit [.log "inner"], .panic "outer"] count 0)) ∧
    ∃ s t u past meanwhile later,
      machine.attributed.Run (submitters [[[.submit [.log "inner"], .panic "outer"]], [[.submit []]]]) s past ∧
      machine.attributed.Run s t meanwhile ∧ machine.attributed.Run t u later ∧
      queued (meanwhile.map Prod.snd) = [1] ∧ Submits (past ++ meanwhile ++ later) 1 3 ∧
      (0, .ended 1) ∈ later ∧ (0, .ended 3) ∈ later := by
  constructor
  · have passes : NeverWaits [.submit [.log "inner"], .panic "outer"] := by simp [NeverWaits, Action.Passes]
    obtain ⟨steps, count, last, alone, -⟩ := ((breadth_first .start).1
      (submitters_idle [[[.submit [.log "inner"], .panic "outer"]], [[.submit []]]]) (i := 0) rfl passes).1
    exact ⟨steps, count, last, alone⟩
  · have first : machine.attributed.follow ([(true, 0), (true, 0)])
        (submitters [[[.submit [.log "inner"], .panic "outer"]], [[.submit []]]], []) =
        some (⟨⟨⟨true, []⟩, 1⟩, [⟨(), [.act (.submit [.log "inner"]), .act (.panic "outer"), .leave 0, .call .receive]⟩,
          ⟨(), [.submit [.submit []]]⟩]⟩, [(0, .submitted 0), (0, .started 0)]) := by cbv
    have stay : machine.attributed.follow ((List.replicate 4 1).map (true, ·))
        (⟨⟨⟨true, []⟩, 1⟩, [⟨(), [.act (.submit [.log "inner"]), .act (.panic "outer"), .leave 0, .call .receive]⟩,
          ⟨(), [.submit [.submit []]]⟩]⟩, []) =
        some (⟨⟨⟨true, [⟨1, [.submit []]⟩]⟩, 2⟩,
          [⟨(), [.act (.submit [.log "inner"]), .act (.panic "outer"), .leave 0, .call .receive]⟩, ⟨(), []⟩]⟩,
          [(1, .submitted 1), (1, .queued 1)]) := by cbv
    have onward : machine.attributed.follow ((List.replicate 22 0).map (true, ·))
        (⟨⟨⟨true, [⟨1, [.submit []]⟩]⟩, 2⟩,
          [⟨(), [.act (.submit [.log "inner"]), .act (.panic "outer"), .leave 0, .call .receive]⟩, ⟨(), []⟩]⟩, []) =
        some (⟨⟨{}, 4⟩, [⟨(), []⟩, ⟨(), []⟩]⟩, [(0, .submitted 2), (0, .queued 2), (0, .ended 0), (0, .started 1),
          (0, .submitted 3), (0, .queued 3), (0, .ended 1), (0, .started 2), (0, .logged "inner"), (0, .ended 2),
          (0, .started 3), (0, .ended 3)]) := by cbv
    have past := Machine.run_of_follow .start first
    have meanwhile := Machine.run_of_follow .start stay
    have later := Machine.run_of_follow .start onward
    obtain ⟨-, _, -, ends⟩ := (breadth_first past).2
      (show System.todoOf _ 0 = ([.act (.submit [.log "inner"]), .act (.panic "outer")] ++
        .leave 0 :: .call .receive :: [] : List Instruction) from rfl)
      meanwhile (by simp [System.todoOf]) later rfl
    obtain ⟨ended, descendants⟩ := ends 1 (by decide)
    refine ⟨_, _, _, _, _, _, past, meanwhile, later, rfl, ?_⟩
    suffices submits : Submits _ 1 3 from ⟨submits, ended, (descendants 3 (.single submits)).2⟩
    exact ⟨0, [(0, .submitted 0), (0, .started 0), (1, .submitted 1), (1, .queued 1), (0, .submitted 2), (0, .queued 2),
      (0, .ended 0)] ++ [(0, .started 1)], _, rfl, _, [], rfl, List.not_mem_nil⟩

end PeerSubstrate.Executor.WorkItems
