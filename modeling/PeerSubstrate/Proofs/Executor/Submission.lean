import PeerSubstrate.Executor.WorkItems

/-!
# What a submission does

A thread that calls the serialized executor stays in `Shape`: what is left of an item ends with its
end, and the next look into the queue follows; behind the queueing of an item stands the second
attempt to become the owner. A thread in shape stays so and does only what `Performs` lists.
-/

namespace PeerSubstrate.Executor.WorkItems
open PeerSubstrate.Concurrency

/-- What must follow an instruction. -/
def Instruction.Follows (rest : List Instruction) : Instruction → Prop
  | .call (.enqueue _) => ∃ tail, rest = .call .retry :: tail
  | .act _ => ∃ next tail, rest = next :: tail ∧ ((∃ action, next = .act action) ∨ next.isLeave = true)
  | .leave _ => ∃ tail, rest = .call .receive :: tail
  | _ => True

/-- Every instruction of a thread is followed by what must follow it. -/
def Shape : List Instruction → Prop
  | [] => True
  | instruction :: rest => instruction.Follows rest ∧ Shape rest

/-- An item in the hands of the owner, in front of what the owner has to do. -/
def Item.todo (item : Item) (rest : List Instruction) : List Instruction :=
  item.script.map .act ++ .leave item.ticket :: .call .receive :: rest

/-- What a thread in shape does in one step: the state and its instructions before and after it, and
what an observer sees. -/
inductive Performs : State → List Instruction → State → List Instruction → List Event → Prop
  | submit {s rest script} : Performs s (.submit script :: rest)
      { s with nextTicket := s.nextTicket + 1 } (.call (.acquire ⟨s.nextTicket, script⟩) :: rest)
      [.submitted s.nextTicket]
  | acquire {queue nextTicket item rest} :
      Performs ⟨⟨false, queue⟩, nextTicket⟩ (.call (.acquire item) :: rest)
        ⟨⟨true, queue⟩, nextTicket⟩ (item.todo rest) [.started item.ticket]
  | refuse {s item rest} : s.executor.active = true → Performs s (.call (.acquire item) :: rest)
      s (.call (.enqueue item) :: .call .retry :: rest) []
  | enqueue {active queue nextTicket item rest} :
      Performs ⟨⟨active, queue⟩, nextTicket⟩ (.call (.enqueue item) :: .call .retry :: rest)
        ⟨⟨active, queue ++ [item]⟩, nextTicket⟩ (.call .retry :: rest) [.queued item.ticket]
  | regain {queue nextTicket step rest} : step = .retry ∨ step = .regain →
      Performs ⟨⟨false, queue⟩, nextTicket⟩ (.call step :: rest)
        ⟨⟨true, queue⟩, nextTicket⟩ (.call .receive :: rest) []
  | desist {s step rest} : step = .retry ∨ step = .regain → s.executor.active = true →
      Performs s (.call step :: rest) s rest []
  | receive {active item queue nextTicket rest} :
      Performs ⟨⟨active, item :: queue⟩, nextTicket⟩ (.call .receive :: rest)
        ⟨⟨active, queue⟩, nextTicket⟩ (item.todo rest) [.started item.ticket]
  | drained {s rest} : s.executor.queue = [] →
      Performs s (.call .receive :: rest) s (.call .release :: rest) []
  | release {active queue nextTicket rest} : Performs ⟨⟨active, queue⟩, nextTicket⟩ (.call .release :: rest)
      ⟨⟨false, queue⟩, nextTicket⟩ (.call .inspect :: rest) []
  | content {s rest} : s.executor.queue = [] → Performs s (.call .inspect :: rest) s rest []
  | notice {s rest} : s.executor.queue ≠ [] → Performs s (.call .inspect :: rest) s (.call .regain :: rest) []
  | log {s rest action text} : Performs s (.act action :: rest) s rest [.logged text]
  | proceed {s rest} : Performs s (.act .await :: rest) s rest []
  | nested {s rest script} : Performs s (.act (.submit script) :: rest) s (.submit script :: rest) []
  | panic {s rest text ticket} (actions : List Action) :
      Performs s (.act (.panic text) :: (actions.map .act ++ .leave ticket :: rest)) s (.leave ticket :: rest) []
  | leave {s ticket rest} : Performs s (.leave ticket :: rest) s rest [.ended ticket]

/-- A panic in the middle of an item leads to the end of that item. -/
theorem Shape.panic {action : Action} {rest : List Instruction} (shape : Shape (.act action :: rest)) :
    ∃ (actions : List Action) (ticket : Nat) (behind : List Instruction),
      rest = actions.map .act ++ .leave ticket :: behind ∧
      rest.dropWhile (fun i => !i.isLeave) = .leave ticket :: behind ∧ Shape (.leave ticket :: behind) := by
  induction rest generalizing action with
  | nil =>
    obtain ⟨_, _, more, -⟩ := shape.1
    simp at more
  | cons next rest ih =>
    obtain ⟨⟨_, _, same, kind⟩, shape⟩ := shape
    obtain ⟨rfl, rfl⟩ := List.cons.inj same
    rcases kind with ⟨action, rfl⟩ | leaves
    · obtain ⟨actions, ticket, behind, rfl, dropped, atEnd⟩ := ih shape
      exact ⟨action :: actions, ticket, behind, rfl, dropped, atEnd⟩
    · cases next with
      | leave ticket => exact ⟨[], ticket, rest, rfl, rfl, shape⟩
      | submit | call | act => simp [Instruction.isLeave] at leaves

private theorem Item.todo_shape (item : Item) {rest : List Instruction} (shape : Shape rest) : Shape (item.todo rest) := by
  have atEnd : Shape (.leave item.ticket :: .call .receive :: rest) := ⟨⟨rest, rfl⟩, trivial, shape⟩
  rw [Item.todo]
  induction item.script with
  | nil => exact atEnd
  | cons action script ih =>
    refine ⟨?_, ih⟩
    cases script with
    | nil => exact ⟨_, _, rfl, .inr rfl⟩
    | cons action script => exact ⟨_, _, rfl, .inl ⟨action, rfl⟩⟩

theorem Item.todo_eq (item : Item) (rest : List Instruction) :
    [Serialized.Next.work item, .go .receive].flatMap Instruction.ofNext ++ rest = item.todo rest := by
  simp [Instruction.ofNext, Item.todo]

/-- Threads in shape do what `Performs` lists, start no threads and stay in shape. -/
theorem performs {released : Bool} {me : Nat} {s : State} {own : Unit} {instruction : Instruction}
    {rest : List Instruction} {effect : Effect State Unit Instruction Event} (shape : Shape (instruction :: rest))
    (performed : machine.perform released me s own instruction rest = some effect) :
    Performs s (instruction :: rest) effect.shared effect.thread.todo effect.events ∧
      Shape effect.thread.todo ∧ effect.started = [] := by
  obtain ⟨follows, inShape⟩ := shape
  obtain ⟨⟨active, queue⟩, nextTicket⟩ := s
  cases instruction with
  | submit script =>
    cases performed
    exact ⟨.submit, ⟨trivial, inShape⟩, rfl⟩
  | leave ticket =>
    cases performed
    exact ⟨.leave, inShape, rfl⟩
  | act action =>
    cases action with
    | log text | describe =>
      cases performed
      exact ⟨.log, inShape, rfl⟩
    | submit script =>
      cases performed
      exact ⟨.nested, ⟨trivial, inShape⟩, rfl⟩
    | panic text =>
      obtain ⟨actions, ticket, behind, rfl, dropped, atEnd⟩ := @Shape.panic (.panic text) rest ⟨follows, inShape⟩
      simp only [machine, dropped, Option.some.injEq] at performed
      subst performed
      exact ⟨.panic actions, atEnd, rfl⟩
    | await =>
      simp only [machine, Option.ite_none_right_eq_some, Option.some.injEq] at performed
      obtain ⟨-, rfl⟩ := performed
      exact ⟨.proceed, inShape, rfl⟩
  | call step =>
    simp only [machine, Option.some.injEq] at performed
    subst performed
    cases step with
    | acquire item =>
      cases active with
      | false =>
        have taken := Item.todo_eq item rest
        exact ⟨taken ▸ .acquire, taken ▸ item.todo_shape inShape, rfl⟩
      | true => exact ⟨.refuse rfl, ⟨⟨_, rfl⟩, trivial, inShape⟩, rfl⟩
    | enqueue item =>
      obtain ⟨tail, rfl⟩ := follows
      exact ⟨.enqueue, inShape, rfl⟩
    | retry =>
      cases active with
      | false => exact ⟨.regain (.inl rfl), ⟨trivial, inShape⟩, rfl⟩
      | true => exact ⟨.desist (.inl rfl) rfl, inShape, rfl⟩
    | receive =>
      cases queue with
      | nil => exact ⟨.drained rfl, ⟨trivial, inShape⟩, rfl⟩
      | cons item queue =>
        have taken := Item.todo_eq item rest
        exact ⟨taken ▸ .receive, taken ▸ item.todo_shape inShape, rfl⟩
    | release => exact ⟨.release, ⟨trivial, inShape⟩, rfl⟩
    | inspect =>
      cases queue with
      | nil => exact ⟨.content rfl, inShape, rfl⟩
      | cons item queue => exact ⟨.notice (by simp), ⟨trivial, inShape⟩, rfl⟩
    | regain =>
      cases active with
      | false => exact ⟨.regain (.inr rfl), ⟨trivial, inShape⟩, rfl⟩
      | true => exact ⟨.desist (.inr rfl) rfl, inShape, rfl⟩

end PeerSubstrate.Executor.WorkItems
