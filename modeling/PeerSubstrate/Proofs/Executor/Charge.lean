import PeerSubstrate.Proofs.Executor.Serialization

/-!
# The thread in charge

The owner of the executor is in charge of the queue until it has found it empty: nobody else starts an item, and
whatever is queued is started by the owner in the order of the queue (`served_of_run`). An observer who sees which
thread does what can tell which items an item submits (`Submits`); they are left to the thread that performs the item
(`started_of_submitsBy`).
-/

namespace PeerSubstrate.Executor.WorkItems
open PeerSubstrate.Concurrency
open Instruction (owns waiting? inside?)

/-- An item that is neither started nor queued is in the next instruction of its thread. -/
def Fronted (todo : List Instruction) : Prop := ∀ i ∈ todo.tail, waiting? i = none

private theorem Item.mem_todo {item : Item} {i : Instruction} {rest : List Instruction} : i ∈ item.todo rest ↔
    (∃ action ∈ item.script, .act action = i) ∨ i = .leave item.ticket ∨ i = .call .receive ∨ i ∈ rest := by
  simp only [Item.todo, List.mem_append, List.mem_map, List.mem_cons]

private theorem Item.fronted_todo (item : Item) {rest : List Instruction} (none : ∀ i ∈ rest, waiting? i = none) :
    Fronted (item.todo rest) := by
  intro i member
  rcases Item.mem_todo.mp (List.mem_of_mem_tail member) with ⟨action, -, rfl⟩ | rfl | rfl | behind
  · rfl
  · rfl
  · rfl
  · exact none i behind

/-- Behind the rest of an item stands the next look into the queue. -/
theorem Shape.receive_of_leave {ticket : Nat} {todo : List Instruction} (shape : Shape todo)
    (within : .leave ticket ∈ todo) : .call .receive ∈ todo := by
  induction todo with
  | nil => cases within
  | cons i rest ih =>
    rcases List.mem_cons.mp within with rfl | behind
    · obtain ⟨tail, rfl⟩ := shape.1
      exact List.mem_cons_of_mem _ List.mem_cons_self
    · exact List.mem_cons_of_mem _ (ih shape.2 behind)

theorem Shape.behind {inner rest : List Instruction} (shape : Shape (inner ++ rest)) : Shape rest := by
  induction inner with
  | nil => exact shape
  | cons _ _ ih => exact ih shape.2

section Step

variable {s s' : State} {todo todo' : List Instruction} {events : List Event} {ticket : Nat}

private theorem Performs.fronted (performs : Performs s todo s' todo' events) (fronted : Fronted todo) : Fronted todo' := by
  have tail (i : Instruction) (member : i ∈ todo.tail.tail) := fronted i (List.mem_of_mem_tail member)
  cases performs with
  | acquire | receive => exact Item.fronted_todo _ fronted
  | refuse => exact List.forall_mem_cons.mpr ⟨rfl, fronted⟩
  | enqueue => exact fun i member => fronted i (List.mem_cons_of_mem _ member)
  | panic actions => exact fun i member => fronted i (List.mem_append_right _ (List.mem_cons_of_mem _ member))
  | submit | regain | drained | release | notice | nested => exact fronted
  | desist | content | log | proceed | leave => exact tail

/-- While the executor is owned, items start from the queue, at its front, and are queued at its end. -/
theorem Performs.served (performs : Performs s todo s' todo' events) (active : s.executor.active = true) :
    started events ++ s'.executor.queue.map Item.ticket = s.executor.queue.map Item.ticket ++ queued events := by
  cases performs with
  | acquire => cases active
  | _ => simp [started, queued]

/-- Nobody else starts an item. -/
theorem Performs.spares (performs : Performs s todo s' todo' events) (active : s.executor.active = true)
    (other : .call .receive ∉ todo) : started events = [] := by
  cases performs with
  | acquire => cases active
  | receive => exact absurd List.mem_cons_self other
  | _ => rfl

/-- A thread remains in charge until it has found the queue empty. -/
theorem Performs.charged (performs : Performs s todo s' todo' events) (charge : .call .receive ∈ todo) :
    .call .receive ∈ todo' ∨
      s'.executor.queue = [] ∧ ∃ rest, todo = .call .receive :: rest ∧ todo' = .call .release :: rest := by
  cases performs with
  | drained empty => exact .inr ⟨empty, _, rfl, rfl⟩
  | desist kind => rcases kind with rfl | rfl <;> exact .inl (by simpa using charge)
  | acquire | receive => exact .inl (Item.mem_todo.mpr (.inr (.inr (.inl rfl))))
  | regain => exact .inl List.mem_cons_self
  | _ => exact .inl (by simpa using charge)

/-- A thread stays inside of an item until it leaves it. -/
theorem Performs.stays (performs : Performs s todo s' todo' events) (within : .leave ticket ∈ todo) :
    .leave ticket ∈ todo' ∨ .ended ticket ∈ events := by
  cases performs with
  | leave =>
    rcases List.mem_cons.mp within with same | behind
    · cases same
      exact .inr List.mem_cons_self
    · exact .inl behind
  | acquire | receive => exact .inl (Item.mem_todo.mpr (.inr (.inr (.inr (by simpa using within)))))
  | _ => exact .inl (by simpa using within)

private theorem Performs.enters (performs : Performs s todo s' todo' events) (starts : .started ticket ∈ events) :
    .leave ticket ∈ todo' := by
  cases performs with
  | acquire | receive =>
    cases List.mem_singleton.mp starts
    exact Item.mem_todo.mpr (.inr (.inl rfl))
  | _ => simp at starts

/-- A new submission is in the next instruction of its thread. -/
theorem Performs.submits (performs : Performs s todo s' todo' events) (submits : .submitted ticket ∈ events) :
    events = [.submitted ticket] ∧ ticket ∈ todo'.filterMap waiting? ∧
      (.call .receive ∈ todo → .call .receive ∈ todo') := by
  cases performs with
  | submit =>
    cases List.mem_singleton.mp submits
    exact ⟨rfl, List.mem_cons_self, fun charge => List.mem_cons_of_mem _ (by simpa using charge)⟩
  | _ => simp at submits

/-- The tickets of one kind of event. -/
theorem mem_tickets {seen : List Event} {event : Event} {ticket? : Event → Option Nat}
    (only : ∀ e, ticket? e = some ticket ↔ e = event) : ticket ∈ seen.filterMap ticket? ↔ event ∈ seen := by
  simp only [List.mem_filterMap, only, exists_eq_right]

theorem mem_started {seen : List Event} : ticket ∈ started seen ↔ .started ticket ∈ seen :=
  mem_tickets fun e => by cases e <;> simp

private theorem mem_ended {seen : List Event} : ticket ∈ ended seen ↔ .ended ticket ∈ seen :=
  mem_tickets fun e => by cases e <;> simp

theorem mem_submitted {seen : List Event} : ticket ∈ submitted seen ↔ .submitted ticket ∈ seen :=
  mem_tickets fun e => by cases e <;> simp

/-- A submitted item is not lost before it starts. -/
theorem Performs.carries (performs : Performs s todo s' todo' events)
    (here : ticket ∈ todo.filterMap waiting? ∨ ticket ∈ s.executor.queue.map Item.ticket) :
    ticket ∈ todo'.filterMap waiting? ∨ ticket ∈ s'.executor.queue.map Item.ticket ∨ .started ticket ∈ events := by
  have placed := performs.placed ticket
  rw [← mem_started]
  simp only [← List.count_pos_iff] at here ⊢
  omega

/-- A thread does not look into the queue while it is inside of an item. -/
theorem Performs.engaged (performs : Performs s todo s' todo' events) (shape : Shape todo) (within : .leave ticket ∈ todo)
    (owner : todo.countP owns ≤ s.executor.active.toNat) : started events = [] := by
  cases performs with
  | acquire =>
    have behind := shape.receive_of_leave within
    have some : 0 < _ := List.countP_pos_iff (p := owns) |>.mpr ⟨_, behind, rfl⟩
    exact absurd owner (Nat.not_le.mpr some)
  | receive =>
    have behind := shape.2.receive_of_leave (by simpa using within)
    have some : 0 < _ := List.countP_pos_iff (p := owns) |>.mpr ⟨_, behind, rfl⟩
    have flag := Nat.le_trans owner (Bool.toNat_le _)
    rw [List.countP_cons_of_pos rfl] at flag
    omega
  | _ => rfl

end Step

/-- Thread `o` makes a step, and all others stay where they are. -/
structure Moves (o : Nat) (s t : System State Unit Instruction) (events : List Event) : Prop where
  performs : Performs s.shared (s.todoOf o) t.shared (t.todoOf o) events
  others : ∀ {p}, p ≠ o → t.todoOf p = s.todoOf p

theorem moves_of_step {released : Bool} {o : Nat} {s t : System State Unit Instruction} {events : List Event}
    (shaped : ∀ thread ∈ s.threads, Shape thread.todo) (stepped : machine.step released o s = some (t, events)) :
    Moves o s t events := by
  obtain ⟨before, own, instruction, rest, after, effect, threads, rfl, performed, rfl, rfl⟩ :=
    Machine.step_eq_some_iff.mp stepped
  obtain ⟨performs, -, none⟩ := performs (shaped ⟨own, instruction :: rest⟩ (threads ▸ mem_middle)) performed
  have here : s.todoOf before.length = instruction :: rest :=
    System.todoOf_of_getElem? (threads ▸ getElem?_middle ⟨own, instruction :: rest⟩)
  have now : System.todoOf ⟨effect.shared, before ++ effect.thread :: (after ++ effect.started)⟩ before.length =
      effect.thread.todo := System.todoOf_of_getElem? (getElem?_middle effect.thread)
  constructor
  case performs =>
    rw [here, now]
    exact performs
  case others =>
    intro p apart
    have set : before ++ effect.thread :: (after ++ effect.started) = s.threads.set before.length effect.thread := by
      rw [threads, none]
      simp
    rw [System.todoOf, System.todoOf, set, List.getElem?_set_ne (Ne.symm apart)]

/-- Thread `o` has started item `x` and not ended it. -/
def Within (trace : List (Nat × Event)) (o x : Nat) : Prop :=
  ∃ before inside, trace = before ++ (o, .started x) :: inside ∧ (o, .ended x) ∉ inside

/-- Inside of item `x`, thread `o` submits item `z`. -/
def SubmitsBy (trace : List (Nat × Event)) (o x z : Nat) : Prop :=
  ∃ before after, trace = before ++ (o, .submitted z) :: after ∧ Within before o x

/-- Inside of item `x`, item `z` is submitted. -/
def Submits (trace : List (Nat × Event)) (x z : Nat) : Prop := ∃ o, SubmitsBy trace o x z

section Run

variable {calls : List (List (List Action))} {s t : System State Unit Instruction} {past later : List (Nat × Event)}

/-- What holds at a place of a run and survives every step of every thread holds from there on. -/
@[elab_as_elim]
theorem along {Holds : System State Unit Instruction → List (Nat × Event) → Prop}
    (first : machine.attributed.Run (submitters calls) s past) (run : machine.attributed.Run s t later) (start : Holds s [])
    (preserved : ∀ {v u later o events}, machine.attributed.Run (submitters calls) v (past ++ later) → Moves o v u events →
      Holds v later → Holds u (later ++ events.map (o, ·))) : Holds t later := by
  induction run with
  | start => exact start
  | step released o run stepped ih =>
    have reached := first.trans run
    obtain ⟨events, happened, rfl⟩ := Machine.step_of_attributed stepped
    exact preserved reached (moves_of_step (Sound.of_run reached.of_attributed).shaped happened) ih

theorem fronted_of_run (run : machine.attributed.Run (submitters calls) s past) (o : Nat) : Fronted (s.todoOf o) := by
  revert o
  refine along .start run ?_ ?_
  · intro o i member
    have inTodo := System.mem_todo_iff.mpr ⟨o, List.mem_of_mem_tail member⟩
    obtain ⟨script, rfl⟩ := idle_iff.mp (submitters_idle calls) i inTodo
    rfl
  · intro v u later o events _ moves fronted p
    by_cases same : p = o
    · subst same
      exact moves.performs.fronted (fronted p)
    · rw [moves.others same]
      exact fronted p

/-! ## The owner -/

theorem Sound.owner {seen : List Event} (sound : Sound s seen) (o : Nat) :
    (s.todoOf o).countP owns ≤ s.shared.executor.active.toNat := by
  have le := s.countP_todoOf_add_le (Nat.ne_of_lt (Nat.lt_succ_self o)) owns
  rw [sound.owned] at le
  omega

theorem Sound.shape {seen : List Event} (sound : Sound s seen) (o : Nat) : Shape (s.todoOf o) := by
  cases found : s.threads[o]? with
  | none =>
    rw [System.todoOf_eq_nil found]
    trivial
  | some thread =>
    rw [System.todoOf_of_getElem? found]
    exact sound.shaped thread (List.mem_of_getElem? found)

/-- The thread in charge owns the executor, alone. -/
theorem Sound.alone {seen : List Event} (sound : Sound s seen) {o : Nat} (charge : .call .receive ∈ s.todoOf o) :
    s.shared.executor.active = true ∧ ∀ {p}, p ≠ o → .call .receive ∉ s.todoOf p := by
  have mine : 0 < (s.todoOf o).countP owns := List.countP_pos_iff.mpr ⟨_, charge, rfl⟩
  have flag := Bool.toNat_le s.shared.executor.active
  constructor
  · have owner := sound.owner o
    exact Bool.toNat_eq_one.mp (by omega)
  · intro p apart other
    have theirs : 0 < (s.todoOf p).countP owns := List.countP_pos_iff.mpr ⟨_, other, rfl⟩
    have le := s.countP_todoOf_add_le apart owns
    rw [sound.owned] at le
    omega

theorem Sound.started_once {seen : List Event} (sound : Sound s seen) (ticket : Nat) : (started seen).count ticket ≤ 1 := by
  have once := sound.submitted_once ticket
  have placed := sound.placed ticket
  omega

/-- An item has not ended as long as a thread is inside of it. -/
theorem Sound.not_ended {seen : List Event} (sound : Sound s seen) {o ticket : Nat} (within : .leave ticket ∈ s.todoOf o) :
    .ended ticket ∉ seen := by
  intro gone
  have here : 0 < (inside s).count ticket :=
    List.count_pos_iff.mpr (List.mem_filterMap.mpr ⟨_, System.mem_todo_iff.mpr ⟨o, within⟩, rfl⟩)
  have there := List.count_pos_iff.mpr (mem_ended.mpr gone)
  have once := sound.started_once ticket
  have running := sound.running ticket
  omega

/-- What was waiting in the queue, thread `o` has started in that order; or it has not come to the end of it. -/
def Served (o : Nat) (waiting : List Nat) (s : System State Unit Instruction) (later : List (Nat × Event)) : Prop :=
  (.call .receive ∈ s.todoOf o ∧ (∀ y ∈ started (later.map Prod.snd), (o, .started y) ∈ later) ∧
    started (later.map Prod.snd) ++ s.shared.executor.queue.map Item.ticket = waiting ++ queued (later.map Prod.snd)) ∨
  ((∀ y ∈ waiting, (o, .started y) ∈ later) ∧ waiting <+: started (later.map Prod.snd))

theorem served_of_run {o : Nat} (first : machine.attributed.Run (submitters calls) s past)
    (run : machine.attributed.Run s t later) (charge : .call .receive ∈ s.todoOf o) :
    Served o (s.shared.executor.queue.map Item.ticket) t later := by
  refine along first run (.inl ⟨charge, nofun, ?_⟩) ?_
  · simp [started, queued]
  · intro v u later p events reached moves served
    have sound := Sound.of_run reached.of_attributed
    rcases served with ⟨charge, mine, account⟩ | ⟨mine, all⟩
    · obtain ⟨active, others⟩ := sound.alone charge
      have step := moves.performs.served active
      have account' : started ((later ++ events.map (p, ·)).map Prod.snd) ++ u.shared.executor.queue.map Item.ticket =
          s.shared.executor.queue.map Item.ticket ++ queued ((later ++ events.map (p, ·)).map Prod.snd) := by
        simp only [List.map_append, Machine.map_snd_attributed, started_append, queued_append]
        rw [List.append_assoc, step, ← List.append_assoc, account, List.append_assoc]
      have mine' (begun : p = o ∨ started events = []) :
          ∀ y ∈ started ((later ++ events.map (p, ·)).map Prod.snd), (o, .started y) ∈ later ++ events.map (p, ·) := by
        intro y member
        rw [List.map_append, Machine.map_snd_attributed, started_append] at member
        rcases List.mem_append.mp member with before | now
        · exact List.mem_append_left _ (mine y before)
        · rcases begun with rfl | none
          · exact List.mem_append_right _ (List.mem_map_of_mem (mem_started.mp now))
          · rw [none] at now
            cases now
      by_cases same : p = o
      · subst same
        rcases moves.performs.charged charge with charge | ⟨empty, -⟩
        · exact .inl ⟨charge, mine' (.inl rfl), account'⟩
        · rw [empty, List.map_nil, List.append_nil] at account'
          refine .inr ⟨fun y member => mine' (.inl rfl) y ?_, account' ▸ List.prefix_append _ _⟩
          rw [account']
          exact List.mem_append_left _ member
      · have quiet := moves.performs.spares active (others same)
        exact .inl ⟨moves.others (Ne.symm same) ▸ charge, mine' (.inr quiet), account'⟩
    · refine .inr ⟨fun y member => List.mem_append_left _ (mine y member), ?_⟩
      rw [List.map_append, started_append]
      exact all.trans (List.prefix_append _ _)

/-- A thread that stays inside of an item performs no other one, and nobody else does. -/
theorem engaged_of_run {o x : Nat} (first : machine.attributed.Run (submitters calls) s past)
    (run : machine.attributed.Run s t later) (within : .leave x ∈ s.todoOf o) :
    (.leave x ∈ t.todoOf o ∧ started (later.map Prod.snd) = [] ∧ t.shared.executor.queue.map Item.ticket =
      s.shared.executor.queue.map Item.ticket ++ queued (later.map Prod.snd)) ∨ .ended x ∈ later.map Prod.snd := by
  refine along first run (.inl ⟨within, rfl, ?_⟩) ?_
  · simp [queued]
  · intro v u later p events reached moves engaged
    have sound := Sound.of_run reached.of_attributed
    rw [List.map_append, Machine.map_snd_attributed]
    rcases engaged with ⟨within, none, account⟩ | gone
    · obtain ⟨active, others⟩ := sound.alone ((sound.shape o).receive_of_leave within)
      have step := moves.performs.served active
      have quiet : started events = [] ∧ (.leave x ∈ u.todoOf o ∨ .ended x ∈ events) := by
        by_cases same : p = o
        · subst same
          exact ⟨moves.performs.engaged (sound.shape p) within (sound.owner p), moves.performs.stays within⟩
        · exact ⟨moves.performs.spares active (others same), .inl (moves.others (Ne.symm same) ▸ within)⟩
      rw [quiet.1, List.nil_append, account, List.append_assoc, ← queued_append] at step
      rcases quiet.2 with within | gone
      · refine .inl ⟨within, ?_, step⟩
        rw [started_append, none, quiet.1]
        rfl
      · exact .inr (List.mem_append_right _ gone)
    · exact .inr (List.mem_append_left _ gone)

/-- What the observer has seen before a step of thread `p`, or has seen of it. -/
theorem split_append {trace before after : List (Nat × Event)} {o p : Nat} {event : Event} {events : List Event}
    (same : trace ++ events.map (p, ·) = before ++ (o, event) :: after) :
    (∃ rest, trace = before ++ (o, event) :: rest ∧ after = rest ++ events.map (p, ·)) ∨
      ∃ early late, before = trace ++ early.map (p, ·) ∧ events = early ++ event :: late ∧ p = o := by
  have new {early late : List (Nat × Event)} (split : events.map (p, ·) = early ++ (o, event) :: late)
      (there : before = trace ++ early) :
      ∃ early late, before = trace ++ early.map (p, ·) ∧ events = early ++ event :: late ∧ p = o := by
    obtain ⟨early, others, rfl, rfl, others_eq⟩ := List.map_eq_append_iff.mp split
    obtain ⟨_, late, rfl, here, -⟩ := List.map_eq_cons_iff.mp others_eq
    obtain ⟨rfl, rfl⟩ := Prod.mk.inj here
    exact ⟨early, late, there, rfl, rfl⟩
  rcases List.append_eq_append_iff.mp same with ⟨early, there, split⟩ | ⟨rest, early, late⟩
  · exact .inr (new split there)
  · cases rest with
    | nil =>
      rw [List.append_nil] at early
      have split : events.map (p, ·) = [] ++ (o, event) :: after := late.symm
      exact .inr (new split (early ▸ (List.append_nil _).symm))
    | cons first rest =>
      obtain ⟨rfl, rfl⟩ := List.cons.inj late
      exact .inl ⟨rest, early, rfl⟩

/-- A thread has still to leave the item that it is performing. -/
theorem leave_of_within {o x : Nat} (run : machine.attributed.Run (submitters calls) s past) (within : Within past o x) :
    .leave x ∈ s.todoOf o := by
  revert within
  refine along .start run ?_ ?_
  · rintro ⟨before, inside, same, -⟩
    simp at same
  · rintro v u later p events - moves leaves ⟨before, inside, same, runs⟩
    rcases split_append same with ⟨rest, early, rfl⟩ | ⟨early, late, -, rfl, rfl⟩
    · have within := leaves ⟨before, rest, early, fun gone => runs (List.mem_append_left _ gone)⟩
      by_cases mine : o = p
      · subst mine
        refine (moves.performs.stays within).resolve_right fun gone => runs ?_
        exact List.mem_append_right _ (List.mem_map_of_mem gone)
      · exact moves.others mine ▸ within
    · exact moves.performs.enters (List.mem_append_right _ List.mem_cons_self)

/-- Item `z` waits for thread `o` to start it. -/
def Awaits (o z : Nat) (s : System State Unit Instruction) : Prop :=
  .call .receive ∈ s.todoOf o ∧
    (z ∈ (s.todoOf o).filterMap waiting? ∨ z ∈ s.shared.executor.queue.map Item.ticket)

theorem Awaits.step {seen events : List Event} {o p z : Nat} (awaits : Awaits o z s) (sound : Sound s seen)
    (fronted : Fronted (s.todoOf o)) (moves : Moves p s t events) : Awaits o z t ∨ o = p ∧ .started z ∈ events := by
  obtain ⟨charge, here⟩ := awaits
  by_cases same : o = p
  · subst same
    rcases moves.performs.carries here with waits | inQueue | begun
    · rcases moves.performs.charged charge with charge | ⟨-, rest, was, now⟩
      · exact .inl ⟨charge, .inl waits⟩
      · rw [was] at fronted
        obtain ⟨i, member, isWaiting⟩ := List.mem_filterMap.mp (now ▸ waits)
        rcases List.mem_cons.mp member with rfl | behind
        · cases isWaiting
        · rw [fronted i behind] at isWaiting
          cases isWaiting
    · rcases moves.performs.charged charge with charge | ⟨empty, -⟩
      · exact .inl ⟨charge, .inr inQueue⟩
      · rw [empty] at inQueue
        cases inQueue
    · exact .inr ⟨rfl, begun⟩
  · obtain ⟨active, others⟩ := sound.alone charge
    have step := moves.performs.served active
    rw [moves.performs.spares active (others (Ne.symm same)), List.nil_append] at step
    refine .inl ⟨moves.others same ▸ charge, ?_⟩
    rw [moves.others same, step]
    exact here.imp_right (List.mem_append_left _)

/-- What an item submits its thread has started, or is going to. -/
theorem started_of_submitsBy {o x z : Nat} (run : machine.attributed.Run (submitters calls) s past)
    (submits : SubmitsBy past o x z) : (o, .started z) ∈ past ∨ Awaits o z s := by
  revert submits
  refine along .start run ?_ ?_
  · rintro ⟨before, after, same, -⟩
    simp at same
  · rintro v u later p events reached moves known ⟨before, after, same, within⟩
    have sound := Sound.of_run reached.of_attributed
    rcases split_append same with ⟨rest, early, -⟩ | ⟨early, late, there, seen, rfl⟩
    · rcases known ⟨before, rest, early, within⟩ with begun | awaits
      · exact .inl (List.mem_append_left _ begun)
      · rcases awaits.step sound (fronted_of_run reached o) moves with awaits | ⟨rfl, begun⟩
        · exact .inr awaits
        · exact .inl (List.mem_append_right _ (List.mem_map_of_mem begun))
    · obtain ⟨only, waits, behind⟩ := moves.performs.submits (seen ▸ List.mem_append_right _ List.mem_cons_self)
      have first : early = [] := by
        rw [only] at seen
        cases early with
        | nil => rfl
        | cons => simp at seen
      subst first
      rw [List.map_nil, List.append_nil] at there
      subst there
      have charge := (sound.shape p).receive_of_leave (leave_of_within reached within)
      exact .inr ⟨behind charge, .inl waits⟩

end Run

end PeerSubstrate.Executor.WorkItems
