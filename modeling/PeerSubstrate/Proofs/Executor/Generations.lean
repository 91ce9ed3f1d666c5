import Mathlib.Algebra.GroupWithZero.Nat
import Mathlib.Logic.Function.Iterate
import PeerSubstrate.Proofs.Executor.Serialization

/-!
# Items generation by generation

The items that an item leads to form a tree: those that it submits before it panics or ends, those that they submit,
and so on. A thread that has the executor to itself performs them generation by generation, each of them whole and
in the order of their submission (`Comes.submission`).
-/

namespace PeerSubstrate.Executor.WorkItems
open PeerSubstrate.Concurrency

mutual
/-- Nothing has to let the script go on, nor any item that it submits. -/
def NeverWaits : List Action → Prop
  | [] => True
  | action :: script => action.Passes ∧ NeverWaits script
/-- The action does not stand still, nor does an item that it submits. -/
def Action.Passes : Action → Prop
  | .await => False
  | .submit script => NeverWaits script
  | .log _ | .describe | .panic _ => True
end

/-- The items that a script submits, up to its end or a panic. -/
def submissions : List Action → List (List Action)
  | [] => []
  | .panic _ :: _ => []
  | .submit script :: rest => script :: submissions rest
  | .log _ :: rest | .describe :: rest | .await :: rest => submissions rest

/-- What all items of a generation submit. -/
def nextGeneration (level : List (List Action)) : List (List Action) := level.flatMap submissions

/-- The first `count` generations, the given one first, one after another. -/
def generations (level : List (List Action)) (count : Nat) : List (List Action) :=
  (List.range count).flatMap fun k => nextGeneration^[k] level

/-- What an observer sees of a body up to its end or a panic, while `waiting` items are queued and `next` is the next
ticket to be drawn. -/
def bodyEvents : (waiting next : Nat) → List Action → List Event
  | _, _, [] => []
  | _, _, .panic _ :: _ => []
  | waiting, next, .submit _ :: rest => .submitted next :: .queued next :: bodyEvents (waiting + 1) (next + 1) rest
  | waiting, next, .log text :: rest => .logged text :: bodyEvents waiting next rest
  | waiting, next, .describe :: rest =>
    .logged (⟨true, List.replicate waiting ()⟩ : Serialized.Shared Unit).describe :: bodyEvents waiting next rest
  | waiting, next, .await :: rest => bodyEvents waiting next rest

/-- What an observer sees of one item after another, from `ticket` on, each of them alone from its start to its end.
All tickets below `next` have been drawn, and those behind the item at hand are waiting. -/
def history : List (List Action) → (ticket next : Nat) → List Event
  | [], _, _ => []
  | script :: others, ticket, next =>
    .started ticket :: (bodyEvents (next - (ticket + 1)) next script ++
      .ended ticket :: history others (ticket + 1) (next + (submissions script).length))

/-- Items with one ticket after another. -/
def numbered : Nat → List (List Action) → List Item
  | _, [] => []
  | ticket, script :: others => ⟨ticket, script⟩ :: numbered (ticket + 1) others

@[simp] theorem length_numbered (ticket : Nat) (scripts : List (List Action)) :
    (numbered ticket scripts).length = scripts.length := by
  induction scripts generalizing ticket with
  | nil => rfl
  | cons script scripts ih => rw [numbered, List.length_cons, ih, List.length_cons]

private theorem numbered_append (ticket : Nat) (one two : List (List Action)) :
    numbered ticket (one ++ two) = numbered ticket one ++ numbered (ticket + one.length) two := by
  induction one generalizing ticket with
  | nil => rfl
  | cons script one ih =>
    rw [List.cons_append, numbered, numbered, ih, List.cons_append, List.length_cons, Nat.add_right_comm, Nat.add_assoc]

private theorem history_append (one two : List (List Action)) (ticket next : Nat) :
    history (one ++ two) ticket next =
      history one ticket next ++ history two (ticket + one.length) (next + (nextGeneration one).length) := by
  induction one generalizing ticket next with
  | nil => rfl
  | cons script one ih =>
    have tickets : ticket + (script :: one).length = ticket + 1 + one.length := by
      rw [List.length_cons]
      omega
    have drawn : next + (nextGeneration (script :: one)).length =
        next + (submissions script).length + (nextGeneration one).length := by
      rw [nextGeneration, nextGeneration, List.flatMap_cons, List.length_append]
      omega
    rw [List.cons_append, history, history, ih, tickets, drawn]
    simp only [List.cons_append, List.append_assoc]

/-- One generation, and those that follow from it. -/
theorem generations_succ (level : List (List Action)) (count : Nat) :
    generations level (count + 1) = level ++ generations (nextGeneration level) count := by
  rw [generations, List.range_succ_eq_map, List.flatMap_cons, List.flatMap_map]
  rfl

private theorem sum_submissions_lt (script : List Action) : ((submissions script).map sizeOf).sum < sizeOf script := by
  induction script with
  | nil =>
    simp only [submissions, List.map_nil, List.sum_nil, List.nil.sizeOf_spec]
    omega
  | cons action script ih =>
    cases action with
    | panic =>
      simp only [submissions, List.map_nil, List.sum_nil, List.cons.sizeOf_spec]
      omega
    | log | describe | await =>
      simp only [submissions, List.cons.sizeOf_spec]
      omega
    | submit item =>
      simp only [submissions, List.map_cons, List.sum_cons, List.cons.sizeOf_spec, Action.submit.sizeOf_spec]
      omega

/-- The next generation is smaller, all of it together. -/
theorem sum_nextGeneration_le (level : List (List Action)) :
    ((nextGeneration level).map sizeOf).sum + level.length ≤ (level.map sizeOf).sum := by
  induction level with
  | nil => exact Nat.le_refl 0
  | cons script level ih =>
    have first := sum_submissions_lt script
    rw [nextGeneration] at ih ⊢
    rw [List.flatMap_cons, List.map_append, List.sum_append, List.map_cons, List.sum_cons, List.length_cons]
    omega

private theorem NeverWaits.submissions {script : List Action} (passes : NeverWaits script) :
    ∀ item ∈ submissions script, NeverWaits item := by
  induction script with
  | nil => simp [WorkItems.submissions]
  | cons action script ih =>
    obtain ⟨first, others⟩ := passes
    cases action with
    | panic => simp [WorkItems.submissions]
    | submit item => exact List.forall_mem_cons.mpr ⟨first, ih others⟩
    | log | describe | await => exact ih others

private theorem NeverWaits.nextGeneration {level : List (List Action)} (passes : ∀ script ∈ level, NeverWaits script) :
    ∀ script ∈ nextGeneration level, NeverWaits script := by
  intro script member
  obtain ⟨parent, inLevel, submitted⟩ := List.mem_flatMap.mp member
  exact (passes parent inLevel).submissions script submitted

/-- All items but the first generation are those that the items submit, in the order of the items. -/
theorem generations_eq {level : List (List Action)} {count : Nat} (last : nextGeneration^[count] level = []) :
    generations level count = level ++ nextGeneration (generations level count) := by
  induction count generalizing level with
  | zero =>
    have empty : level = [] := last
    rw [empty]
    rfl
  | succ count ih =>
    have split : nextGeneration (level ++ generations (nextGeneration level) count) =
        nextGeneration level ++ nextGeneration (generations (nextGeneration level) count) := List.flatMap_append
    rw [generations_succ, split, ← ih last]

private theorem seen_of_body (waiting next : Nat) (script : List Action) :
    submitted (bodyEvents waiting next script) = List.range' next (submissions script).length ∧
      started (bodyEvents waiting next script) = [] ∧ ended (bodyEvents waiting next script) = [] := by
  induction script generalizing waiting next with
  | nil => exact ⟨rfl, rfl, rfl⟩
  | cons action script ih =>
    cases action with
    | panic => exact ⟨rfl, rfl, rfl⟩
    | log | describe | await => exact ih waiting next
    | submit item =>
      obtain ⟨submits, starts, ends⟩ := ih (waiting + 1) (next + 1)
      exact ⟨congrArg (next :: ·) submits, starts, ends⟩

theorem submitted_history (scripts : List (List Action)) (ticket next : Nat) :
    submitted (history scripts ticket next) = List.range' next (nextGeneration scripts).length := by
  induction scripts generalizing ticket next with
  | nil => rfl
  | cons script others ih =>
    have inside := (seen_of_body (next - (ticket + 1)) next script).1
    have behind : submitted (.ended ticket :: history others (ticket + 1) (next + (submissions script).length)) =
      submitted (history others (ticket + 1) (next + (submissions script).length)) := rfl
    have first : nextGeneration (script :: others) = submissions script ++ nextGeneration others := List.flatMap_cons
    rw [history]
    refine Eq.trans (submitted_append _ _) ?_
    rw [inside, behind, ih, first, List.length_append, List.range'_append_1]

theorem started_history (scripts : List (List Action)) (ticket next : Nat) :
    started (history scripts ticket next) = List.range' ticket scripts.length := by
  induction scripts generalizing ticket next with
  | nil => rfl
  | cons script others ih =>
    have inside := (seen_of_body (next - (ticket + 1)) next script).2.1
    refine congrArg (ticket :: ·) ?_
    refine Eq.trans (started_append _ _) ?_
    rw [inside]
    exact ih _ _

theorem ended_history (scripts : List (List Action)) (ticket next : Nat) :
    ended (history scripts ticket next) = List.range' ticket scripts.length := by
  induction scripts generalizing ticket next with
  | nil => rfl
  | cons script others ih =>
    have inside := (seen_of_body (next - (ticket + 1)) next script).2.2
    refine Eq.trans (ended_append _ _) ?_
    rw [inside]
    exact congrArg (ticket :: ·) (ih _ _)

/-! ## A thread on its own -/

/-- Thread `before.length` on its own comes from one place to another, whatever the world says, and an observer sees
`events`. -/
def Comes (before after : List (Thread Unit Instruction)) (s : State) (todo : List Instruction) (s' : State)
    (todo' : List Instruction) (events : List Event) : Prop :=
  ∃ steps, ∀ worlds : List Bool, worlds.length = steps → ∀ seen,
    machine.follow (worlds.map (·, before.length)) (⟨s, before ++ ⟨(), todo⟩ :: after⟩, seen) =
      some (⟨s', before ++ ⟨(), todo'⟩ :: after⟩, seen ++ events)

namespace Comes

variable {before after : List (Thread Unit Instruction)}

theorem refl (s : State) (todo : List Instruction) : Comes before after s todo s todo [] := by
  refine ⟨0, fun worlds none seen => ?_⟩
  rw [List.length_eq_zero_iff.mp none, List.append_nil]
  rfl

theorem trans {s s' s'' : State} {todo todo' todo'' : List Instruction} {events more : List Event}
    (first : Comes before after s todo s' todo' events) (second : Comes before after s' todo' s'' todo'' more) :
    Comes before after s todo s'' todo'' (events ++ more) := by
  obtain ⟨steps, there⟩ := first
  obtain ⟨others, further⟩ := second
  refine ⟨steps + others, fun worlds length seen => ?_⟩
  have early : (worlds.take steps).length = steps := by
    rw [List.length_take]
    omega
  have late : (worlds.drop steps).length = others := by
    rw [List.length_drop]
    omega
  rw [← List.take_append_drop steps worlds, List.map_append, Machine.follow_append, there _ early, Option.bind_some,
    further _ late, List.append_assoc]

theorem step {s t : State} {instruction : Instruction} {rest todo : List Instruction} {events : List Event}
    (performed : ∀ released, machine.perform released before.length s () instruction rest =
      some { shared := t, thread := ⟨(), todo⟩, events }) :
    Comes before after s (instruction :: rest) t todo events := by
  refine ⟨1, fun worlds length seen => ?_⟩
  obtain ⟨released, rfl⟩ := List.length_eq_one_iff.mp length
  have stepped : machine.step released before.length ⟨s, before ++ ⟨(), instruction :: rest⟩ :: after⟩ =
      some (⟨t, before ++ ⟨(), todo⟩ :: after⟩, events) := by
    rw [Machine.step_middle (performed released), List.append_nil]
  rw [List.map_singleton, Machine.follow, stepped]
  rfl

/-- A step that nobody sees, and what follows it. -/
theorem silently {s t s' : State} {instruction : Instruction} {rest todo todo' : List Instruction} {more : List Event}
    (performed : ∀ released, machine.perform released before.length s () instruction rest =
      some { shared := t, thread := ⟨(), todo⟩, events := [] })
    (onward : Comes before after t todo s' todo' more) : Comes before after s (instruction :: rest) s' todo' more :=
  (step performed).trans onward

/-- A step that is seen, and what follows it. -/
theorem visibly {s t s' : State} {instruction : Instruction} {rest todo todo' : List Instruction} {event : Event}
    {more : List Event} (performed : ∀ released, machine.perform released before.length s () instruction rest =
      some { shared := t, thread := ⟨(), todo⟩, events := [event] })
    (onward : Comes before after t todo s' todo' more) :
    Comes before after s (instruction :: rest) s' todo' (event :: more) :=
  (step performed).trans onward

/-- The executor tells how many items wait, and nothing else about them. -/
theorem describe_eq (queue : List Item) :
    (⟨true, queue⟩ : Serialized.Shared Item).describe =
      (⟨true, List.replicate queue.length ()⟩ : Serialized.Shared Unit).describe := by
  unfold Serialized.Shared.describe
  rw [List.length_replicate]

private theorem leaving (s : State) (ticket : Nat) (rest : List Instruction) :
    Comes before after s (.leave ticket :: rest) s rest [.ended ticket] :=
  step fun _ => rfl

variable (before after)

/-- What is left of an item: what it submits is queued, and then the owner looks for the next one. -/
theorem body (ticket : Nat) (rest : List Instruction) {script : List Action} (passes : NeverWaits script)
    (queue : List Item) (next : Nat) :
    Comes before after ⟨⟨true, queue⟩, next⟩ (script.map .act ++ .leave ticket :: .call .receive :: rest)
      ⟨⟨true, queue ++ numbered next (submissions script)⟩, next + (submissions script).length⟩ (.call .receive :: rest)
      (bodyEvents queue.length next script ++ [.ended ticket]) := by
  induction script generalizing queue next with
  | nil =>
    simp only [submissions, numbered, List.append_nil, List.length_nil, Nat.add_zero, bodyEvents, List.nil_append,
      List.map_nil]
    exact leaving _ ticket _
  | cons action script ih =>
    obtain ⟨first, others⟩ := passes
    cases action with
    | log text => exact visibly (fun _ => rfl) (ih others queue next)
    | describe =>
      rw [bodyEvents, ← describe_eq queue]
      exact visibly (fun _ => rfl) (ih others queue next)
    | panic text =>
      rw [submissions, numbered, List.append_nil, List.length_nil, Nat.add_zero, bodyEvents, List.nil_append]
      have dropped : (script.map Instruction.act ++ .leave ticket :: .call .receive :: rest).dropWhile
          (fun i => !i.isLeave) = .leave ticket :: .call .receive :: rest := by
        rw [List.dropWhile_append_of_pos (by simp [Instruction.isLeave])]
        rfl
      refine silently (fun _ => ?_) (leaving _ ticket _)
      exact congrArg (fun todo => some (Effect.mk _ (Thread.mk () todo) [] [])) dropped
    | await => exact first.elim
    | submit item =>
      have tickets : next + (submissions (.submit item :: script)).length = next + 1 + (submissions script).length := by
        rw [submissions, List.length_cons]
        omega
      have queued := ih others (queue ++ [⟨next, item⟩]) (next + 1)
      rw [List.append_assoc, List.singleton_append, List.length_append, List.length_singleton] at queued
      rw [tickets]
      -- The call draws a ticket, finds the executor taken, queues the item and finds it taken again.
      exact silently (fun _ => rfl) <| visibly (fun _ => rfl) <| silently (fun _ => rfl) <| visibly (fun _ => rfl) <|
        silently (fun _ => rfl) queued

/-- One item from the queue. -/
theorem item (rest : List Instruction) {script : List Action} (passes : NeverWaits script) (ticket next : Nat)
    (queue : List Item) (waiting : queue.length = next - (ticket + 1)) :
    Comes before after ⟨⟨true, ⟨ticket, script⟩ :: queue⟩, next⟩ (.call .receive :: rest)
      ⟨⟨true, queue ++ numbered next (submissions script)⟩, next + (submissions script).length⟩ (.call .receive :: rest)
      (.started ticket :: (bodyEvents (next - (ticket + 1)) next script ++ [.ended ticket])) := by
  have taken := Item.todo_eq ⟨ticket, script⟩ rest
  have inside := body before after ticket rest passes queue next
  rw [waiting] at inside
  refine visibly (fun _ => ?_) inside
  exact congrArg (fun todo => some (Effect.mk _ (Thread.mk () todo) [] _)) taken

/-- One generation from the queue: what its items submit takes their place behind what was queued behind them. -/
theorem generation (rest : List Instruction) {level : List (List Action)} (passes : ∀ script ∈ level, NeverWaits script)
    (others : List (List Action)) (ticket : Nat) :
    Comes before after ⟨⟨true, numbered ticket (level ++ others)⟩, ticket + level.length + others.length⟩
      (.call .receive :: rest)
      ⟨⟨true, numbered (ticket + level.length) (others ++ nextGeneration level)⟩,
        ticket + level.length + others.length + (nextGeneration level).length⟩ (.call .receive :: rest)
      (history level ticket (ticket + level.length + others.length)) := by
  induction level generalizing others ticket with
  | nil =>
    rw [nextGeneration, List.flatMap_nil, List.append_nil]
    exact refl _ _
  | cons script level ih =>
    obtain ⟨first, passes⟩ := List.forall_mem_cons.mp passes
    have next : ticket + (script :: level).length + others.length = ticket + 1 + level.length + others.length := by
      rw [List.length_cons]
      omega
    have waiting : (numbered (ticket + 1) (level ++ others)).length =
        ticket + 1 + level.length + others.length - (ticket + 1) := by
      rw [length_numbered, List.length_append]
      omega
    have served := item before after rest first ticket _ _ waiting
    have drawn : ticket + 1 + level.length + others.length = ticket + 1 + (level ++ others).length := by
      rw [List.length_append]
      omega
    have queue : numbered (ticket + 1) (level ++ others) ++
        numbered (ticket + 1 + level.length + others.length) (submissions script) =
          numbered (ticket + 1) (level ++ (others ++ submissions script)) := by
      rw [drawn, ← numbered_append, List.append_assoc]
    have onward := ih passes (others ++ submissions script) (ticket + 1)
    have submitted : nextGeneration (script :: level) = submissions script ++ nextGeneration level := List.flatMap_cons
    have behind : ticket + (script :: level).length = ticket + 1 + level.length := by
      rw [List.length_cons]
      omega
    rw [queue] at served
    rw [List.length_append, ← Nat.add_assoc] at onward
    have all := served.trans onward
    rw [List.append_assoc, List.cons_append, List.append_assoc, List.singleton_append] at all
    rw [behind, submitted, List.length_append, ← Nat.add_assoc]
    exact all

/-- The owner performs what is queued and what that leads to, and gives the executor up. -/
theorem drained (rest : List Instruction) {level : List (List Action)} (passes : ∀ script ∈ level, NeverWaits script)
    (ticket : Nat) : ∃ count, nextGeneration^[count] level = [] ∧
      Comes before after ⟨⟨true, numbered ticket level⟩, ticket + level.length⟩ (.call .receive :: rest)
        ⟨{}, ticket + (generations level count).length⟩ rest
        (history (generations level count) ticket (ticket + level.length)) := by
  induction size : (level.map sizeOf).sum using Nat.strongRecOn generalizing level ticket with
  | ind bound ih =>
    subst size
    cases level with
    | nil =>
      -- The owner finds nothing, releases the executor and finds nothing again.
      exact ⟨0, rfl, silently (fun _ => rfl) <| silently (fun _ => rfl) <| silently (fun _ => rfl) <| refl _ _⟩
    | cons script level =>
      have smaller : ((nextGeneration (script :: level)).map sizeOf).sum < ((script :: level).map sizeOf).sum := by
        have le := sum_nextGeneration_le (script :: level)
        rw [List.length_cons] at le
        omega
      obtain ⟨count, last, onward⟩ :=
        ih _ smaller (NeverWaits.nextGeneration passes) (ticket + (script :: level).length) rfl
      have served := generation before after rest passes [] ticket
      rw [List.append_nil, List.nil_append, List.length_nil, Nat.add_zero] at served
      have all := served.trans onward
      rw [← history_append, Nat.add_assoc, ← List.length_append, ← generations_succ] at all
      exact ⟨count + 1, last, all⟩

/-- A submission to an executor that nobody uses: the item is performed, and all that it leads to. -/
theorem submission (rest : List Instruction) {script : List Action} (passes : NeverWaits script) (next : Nat) :
    ∃ count, nextGeneration^[count] [script] = [] ∧
      Comes before after ⟨{}, next⟩ (.submit script :: rest) ⟨{}, next + (generations [script] count).length⟩ rest
        (.submitted next :: history (generations [script] count) next (next + 1)) := by
  obtain ⟨count, last, onward⟩ :=
    drained before after rest (fun item member => passes.submissions item member) (next + 1)
  have inside := (body before after next rest passes [] (next + 1)).trans onward
  have alone : nextGeneration [script] = submissions script := List.flatMap_singleton ..
  refine ⟨count + 1, by rw [Function.iterate_succ_apply, alone, last], ?_⟩
  have same : next + 1 - (next + 1) = ([] : List Item).length := Nat.sub_self _
  have number : next + (generations [script] (count + 1)).length =
      next + 1 + (generations (submissions script) count).length := by
    rw [generations_succ, alone, List.length_append, List.length_singleton, Nat.add_assoc]
  rw [number, generations_succ, alone, List.singleton_append, history, same]
  rw [List.append_assoc, List.singleton_append] at inside
  refine visibly (fun _ => rfl) (visibly (fun _ => ?_) inside)
  exact congrArg (fun todo => some (Effect.mk _ (Thread.mk () todo) [] _)) (Item.todo_eq ⟨next, script⟩ rest)

end Comes

end PeerSubstrate.Executor.WorkItems
