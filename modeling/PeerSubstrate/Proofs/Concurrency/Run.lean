import PeerSubstrate.Concurrency.Machine

/-!
# Runs

What a step does to a system is said once (`Machine.step_eq_some_iff`): one thread performs its next
instruction in the middle of all others, and the threads it starts join at the end. What every step of
a run preserves holds along the run (`Machine.Run.along`), and a schedule whose steps can all be
performed is a run (`Machine.run_of_follow`).
-/

namespace PeerSubstrate.Concurrency

variable {σ τ ι ε ω : Type}

/-- Everything the threads of a system have still to do, thread after thread. -/
def System.todo (s : System σ τ ι) : List ι := s.threads.flatMap Thread.todo

/-- What thread `i` has still to do. -/
def System.todoOf (s : System σ τ ι) (i : Nat) : List ι := (s.threads[i]?.map Thread.todo).getD []

section Threads

variable {before after started : List (Thread τ ι)} {one thread : Thread τ ι} {i : Nat}

/-- A thread after a step is the one that made it, or it was there before, or it has just been started. -/
theorem mem_threads_iff : thread ∈ before ++ one :: (after ++ started) ↔
    thread = one ∨ thread ∈ before ++ after ∨ thread ∈ started := by
  simp only [List.mem_append, List.mem_cons, or_assoc, or_left_comm]

theorem mem_of_other (other : thread ∈ before ++ after) : thread ∈ before ++ one :: after :=
  ((List.sublist_cons_self one after).append_left before).subset other

theorem mem_middle : one ∈ before ++ one :: after := List.mem_append_right _ List.mem_cons_self

theorem getElem?_middle (one : Thread τ ι) : (before ++ one :: after)[before.length]? = some one := by simp

/-- A thread in the middle of all others. -/
theorem split_of_getElem? {threads : List (Thread τ ι)} (found : threads[i]? = some thread) :
    ∃ before after, threads = before ++ thread :: after ∧ before.length = i := by
  obtain ⟨inside, here⟩ := List.getElem?_eq_some_iff.mp found
  refine ⟨threads.take i, threads.drop (i + 1), ?_, List.length_take_of_le (Nat.le_of_lt inside)⟩
  rw [← here, List.getElem_cons_drop, List.take_append_drop]

/-- Another thread than the one that makes a step stays in its place. -/
theorem getElem?_of_ne (apart : i ≠ before.length) (found : (before ++ one :: after)[i]? = some thread) (now : Thread τ ι)
    (started : List (Thread τ ι)) :
    thread ∈ before ++ after ∧ (before ++ now :: (after ++ started))[i]? = some thread := by
  rcases Nat.lt_or_gt_of_ne apart with less | greater
  · rw [List.getElem?_append_left less] at found
    exact ⟨List.mem_append_left _ (List.mem_of_getElem? found), (List.getElem?_append_left less).trans found⟩
  · obtain ⟨k, rfl⟩ := Nat.exists_eq_add_of_lt greater
    rw [List.getElem?_append_right (by omega)] at found ⊢
    have index : before.length + k + 1 - before.length = k + 1 := by omega
    rw [index, List.getElem?_cons_succ] at found ⊢
    refine ⟨List.mem_append_right _ (List.mem_of_getElem? found), ?_⟩
    rw [List.getElem?_append_left (List.getElem?_eq_some_iff.mp found).1]
    exact found

/-- And where another thread is after a step, it has been before, unless it has just been started. -/
theorem started_or_getElem? (apart : i ≠ before.length) (found : (before ++ one :: (after ++ started))[i]? = some thread)
    (past : Thread τ ι) : thread ∈ started ∨ (before ++ past :: after)[i]? = some thread := by
  have moved := (getElem?_of_ne apart found past []).2
  rw [List.append_nil, ← List.cons_append, ← List.append_assoc] at moved
  rcases Nat.lt_or_ge i (before ++ past :: after).length with inside | beyond
  · exact .inr ((List.getElem?_append_left inside).symm.trans moved)
  · rw [List.getElem?_append_right beyond] at moved
    exact .inl (List.mem_of_getElem? moved)

end Threads

namespace System

variable {s : System σ τ ι} {thread : Thread τ ι} {i j : Nat}

theorem todoOf_of_getElem? (found : s.threads[i]? = some thread) : s.todoOf i = thread.todo := by
  rw [todoOf, found]
  rfl

theorem todoOf_eq_nil (none : s.threads[i]? = none) : s.todoOf i = [] := by
  rw [todoOf, none]
  rfl

theorem getElem?_of_todoOf {instruction : ι} {rest : List ι} (todo : s.todoOf i = instruction :: rest) :
    ∃ own, s.threads[i]? = some ⟨own, instruction :: rest⟩ := by
  cases found : s.threads[i]? with
  | none => simp [todoOf_eq_nil found] at todo
  | some thread =>
    rw [todoOf_of_getElem? found] at todo
    exact ⟨thread.own, todo ▸ rfl⟩

theorem mem_todo_iff {instruction : ι} : instruction ∈ s.todo ↔ ∃ i, instruction ∈ s.todoOf i := by
  rw [todo, List.mem_flatMap]
  constructor
  · rintro ⟨thread, member, here⟩
    obtain ⟨i, found⟩ := List.getElem?_of_mem member
    exact ⟨i, (todoOf_of_getElem? found).symm ▸ here⟩
  · rintro ⟨i, here⟩
    cases found : s.threads[i]? with
    | none => simp [todoOf_eq_nil found] at here
    | some thread => exact ⟨thread, List.mem_of_getElem? found, todoOf_of_getElem? found ▸ here⟩

private theorem sublist_of_mem {threads : List (Thread τ ι)} (member : thread ∈ threads) :
    thread.todo.Sublist (threads.flatMap Thread.todo) :=
  List.sublist_flatten_of_mem (List.mem_map_of_mem member)

/-- Two threads have not more to do than all of them. -/
theorem countP_todoOf_add_le (apart : i ≠ j) (p : ι → Bool) :
    (s.todoOf i).countP p + (s.todoOf j).countP p ≤ s.todo.countP p := by
  cases found : s.threads[j]? with
  | none =>
    rw [todoOf_eq_nil found]
    cases other : s.threads[i]? with
    | none => simp [todoOf_eq_nil other]
    | some thread =>
      rw [todoOf_of_getElem? other]
      exact (sublist_of_mem (List.mem_of_getElem? other)).countP_le
  | some one =>
    obtain ⟨before, after, threads, rfl⟩ := split_of_getElem? found
    have all : s.todo.countP p = one.todo.countP p + ((before ++ after).flatMap Thread.todo).countP p := by
      rw [todo, threads]
      simp only [List.flatMap_append, List.flatMap_cons, List.countP_append]
      omega
    rw [todoOf_of_getElem? found, all]
    cases other : s.threads[i]? with
    | none =>
      rw [todoOf_eq_nil other, List.countP_nil]
      omega
    | some thread =>
      rw [threads] at other
      have le := (sublist_of_mem (getElem?_of_ne apart other one []).1).countP_le (p := p)
      rw [← threads] at other
      rw [todoOf_of_getElem? other]
      omega

end System

/-! ## Steps and runs -/

namespace Machine

variable {m : Machine σ τ ι ε ω}

theorem step_eq_some_iff {world : ω} {i : Nat} {s u : System σ τ ι} {events : List ε} :
    m.step world i s = some (u, events) ↔ ∃ before own instruction rest after effect,
      s.threads = before ++ ⟨own, instruction :: rest⟩ :: after ∧ before.length = i ∧
      m.perform world i s.shared own instruction rest = some effect ∧
      u = ⟨effect.shared, before ++ effect.thread :: (after ++ effect.started)⟩ ∧ events = effect.events := by
  have replaced : ∀ (before after : List (Thread τ ι)) (one other : Thread τ ι),
      (before ++ one :: after).set before.length other = before ++ other :: after := by simp
  constructor
  · intro stepped
    unfold step at stepped
    split at stepped
    · next own instruction rest found =>
      obtain ⟨effect, performed, same⟩ := Option.map_eq_some_iff.mp stepped
      obtain ⟨before, after, threads, rfl⟩ := split_of_getElem? found
      obtain ⟨rfl, rfl⟩ := Prod.mk.inj same
      refine ⟨before, own, instruction, rest, after, effect, threads, rfl, performed, ?_, rfl⟩
      rw [threads, replaced, List.append_assoc, List.cons_append]
    · simp at stepped
  · rintro ⟨before, own, instruction, rest, after, effect, threads, rfl, performed, rfl, rfl⟩
    rw [step, threads, getElem?_middle]
    simp only [performed, Option.map_some, replaced, List.append_assoc, List.cons_append]

/-- What holds at the start and is preserved by every step of a run holds at its end. -/
@[elab_as_elim]
theorem Run.along {Holds : System σ τ ι → List ε → Prop} {s t : System σ τ ι} {seen : List ε}
    (run : m.Run s t seen) (start : Holds s [])
    (preserved : ∀ {before own instruction rest after effect world shared seen},
      m.Run s ⟨shared, before ++ ⟨own, instruction :: rest⟩ :: after⟩ seen →
      Holds ⟨shared, before ++ ⟨own, instruction :: rest⟩ :: after⟩ seen →
      m.perform world before.length shared own instruction rest = some effect →
      Holds ⟨effect.shared, before ++ effect.thread :: (after ++ effect.started)⟩ (seen ++ effect.events)) :
    Holds t seen := by
  induction run with
  | start => exact start
  | @step t u seen events world i run stepped ih =>
    obtain ⟨before, own, instruction, rest, after, effect, threads, rfl, performed, rfl, rfl⟩ :=
      step_eq_some_iff.mp stepped
    obtain ⟨shared, _⟩ := t
    cases threads
    exact preserved run ih performed

/-- What every step preserves, wherever it starts, is preserved along every run. -/
@[elab_as_elim]
theorem Run.invariant {Holds : System σ τ ι → List ε → Prop} {s t : System σ τ ι} {seen : List ε}
    (run : m.Run s t seen) (start : Holds s [])
    (preserved : ∀ {before own instruction rest after effect world shared seen},
      Holds ⟨shared, before ++ ⟨own, instruction :: rest⟩ :: after⟩ seen →
      m.perform world before.length shared own instruction rest = some effect →
      Holds ⟨effect.shared, before ++ effect.thread :: (after ++ effect.started)⟩ (seen ++ effect.events)) :
    Holds t seen :=
  run.along start fun _ => preserved

/-- The same for what does not depend on what has been seen. -/
theorem Run.keeps {Holds : System σ τ ι → Prop} {s t : System σ τ ι} {seen : List ε} (run : m.Run s t seen) (start : Holds s)
    (preserved : ∀ {before own instruction rest after effect world shared},
      Holds ⟨shared, before ++ ⟨own, instruction :: rest⟩ :: after⟩ →
      m.perform world before.length shared own instruction rest = some effect →
      Holds ⟨effect.shared, before ++ effect.thread :: (after ++ effect.started)⟩) : Holds t :=
  @Run.invariant _ _ _ _ _ m (fun s _ => Holds s) s t seen run start preserved

/-- A run goes on. -/
theorem Run.trans {s t u : System σ τ ι} {seen later : List ε} (run : m.Run s t seen) (more : m.Run t u later) :
    m.Run s u (seen ++ later) := by
  induction more with
  | start =>
    rw [List.append_nil]
    exact run
  | step world i _ stepped ih =>
    rw [← List.append_assoc]
    exact ih.step world i stepped

/-- The machine that performs what is allowed, and nothing else. -/
def restrict (m : Machine σ τ ι ε ω) (allowed : ω → ι → Bool) : Machine σ τ ι ε ω where
  perform world me shared own instruction rest :=
    if allowed world instruction then m.perform world me shared own instruction rest else none

theorem restrict_perform {allowed : ω → ι → Bool} {world : ω} {me : Nat} {shared : σ} {own : τ} {instruction : ι}
    {rest : List ι} {effect : Effect σ τ ι ε} :
    (m.restrict allowed).perform world me shared own instruction rest = some effect ↔
      allowed world instruction = true ∧ m.perform world me shared own instruction rest = some effect := by
  simp only [restrict, Option.ite_none_right_eq_some]

private theorem step_of_restrict {allowed : ω → ι → Bool} {world : ω} {i : Nat} {s u : System σ τ ι} {events : List ε}
    (stepped : (m.restrict allowed).step world i s = some (u, events)) : m.step world i s = some (u, events) := by
  obtain ⟨before, own, instruction, rest, after, effect, threads, index, performed, left⟩ := step_eq_some_iff.mp stepped
  exact step_eq_some_iff.mpr ⟨before, own, instruction, rest, after, effect, threads, index,
    (restrict_perform.mp performed).2, left⟩

/-- The runs of a restricted machine are runs of the machine. -/
theorem Run.of_restrict {allowed : ω → ι → Bool} {s t : System σ τ ι} {seen : List ε}
    (run : (m.restrict allowed).Run s t seen) : m.Run s t seen := by
  induction run with
  | start => exact .start
  | step world i _ stepped ih => exact ih.step world i (step_of_restrict stepped)

/-- The same machine before another observer, who also sees which instructions are performed. -/
def observe {κ : Type} (m : Machine σ τ ι ε ω) (note : ι → List ε → List κ) : Machine σ τ ι κ ω where
  perform world me shared own instruction rest :=
    (m.perform world me shared own instruction rest).map fun effect =>
      { shared := effect.shared, thread := effect.thread, started := effect.started, events := note instruction effect.events }

private theorem step_of_observe {κ : Type} {note : ι → List ε → List κ} {world : ω} {i : Nat} {s u : System σ τ ι}
    {noted : List κ}
    (stepped : (m.observe note).step world i s = some (u, noted)) : ∃ events, m.step world i s = some (u, events) := by
  obtain ⟨before, own, instruction, rest, after, _, threads, index, observed, rfl, -⟩ := step_eq_some_iff.mp stepped
  obtain ⟨effect, performed, rfl⟩ := Option.map_eq_some_iff.mp observed
  exact ⟨effect.events, step_eq_some_iff.mpr
    ⟨before, own, instruction, rest, after, effect, threads, index, performed, rfl, rfl⟩⟩

/-- Whatever the other observer sees, it is a run of the machine. -/
theorem Run.of_observe {κ : Type} {note : ι → List ε → List κ} {s t : System σ τ ι} {noted : List κ}
    (run : (m.observe note).Run s t noted) : ∃ seen, m.Run s t seen := by
  induction run with
  | start => exact ⟨[], .start⟩
  | step world i _ stepped ih =>
    obtain ⟨seen, run⟩ := ih
    obtain ⟨events, stepped⟩ := step_of_observe stepped
    exact ⟨seen ++ events, run.step world i stepped⟩

/-- The same machine before an observer who also sees from where in which world an instruction is performed. -/
def watch {κ : Type} (m : Machine σ τ ι ε ω) (note : ω → σ → τ → ι → List ε → List κ) : Machine σ τ ι κ ω where
  perform world me shared own instruction rest :=
    (m.perform world me shared own instruction rest).map fun effect =>
      { shared := effect.shared, thread := effect.thread, started := effect.started,
        events := note world shared own instruction effect.events }

theorem watch_step_iff {κ : Type} {note : ω → σ → τ → ι → List ε → List κ} {world : ω} {i : Nat} {s u : System σ τ ι}
    {noted : List κ} : (m.watch note).step world i s = some (u, noted) ↔ ∃ before own instruction rest after effect,
      s.threads = before ++ ⟨own, instruction :: rest⟩ :: after ∧ before.length = i ∧
      m.perform world i s.shared own instruction rest = some effect ∧
      u = ⟨effect.shared, before ++ effect.thread :: (after ++ effect.started)⟩ ∧
      noted = note world s.shared own instruction effect.events := by
  rw [step_eq_some_iff]
  constructor
  · rintro ⟨before, own, instruction, rest, after, _, threads, index, watched, rfl, rfl⟩
    obtain ⟨effect, performed, rfl⟩ := Option.map_eq_some_iff.mp watched
    exact ⟨before, own, instruction, rest, after, effect, threads, index, performed, rfl, rfl⟩
  · rintro ⟨before, own, instruction, rest, after, effect, threads, index, performed, rfl, rfl⟩
    exact ⟨before, own, instruction, rest, after, _, threads, index,
      Option.map_eq_some_iff.mpr ⟨effect, performed, rfl⟩, rfl, rfl⟩

/-- Whatever this observer sees, it is a run of the machine. -/
theorem Run.of_watch {κ : Type} {note : ω → σ → τ → ι → List ε → List κ} {s t : System σ τ ι} {noted : List κ}
    (run : (m.watch note).Run s t noted) : ∃ seen, m.Run s t seen := by
  induction run with
  | start => exact ⟨[], .start⟩
  | step world i _ stepped ih =>
    obtain ⟨seen, run⟩ := ih
    obtain ⟨before, own, instruction, rest, after, effect, threads, index, performed, left, -⟩ := watch_step_iff.mp stepped
    exact ⟨seen ++ effect.events, run.step world i (step_eq_some_iff.mpr
      ⟨before, own, instruction, rest, after, effect, threads, index, performed, left, rfl⟩)⟩

/-- What holds at the start and is preserved by every step of a run holds of what this observer sees. -/
@[elab_as_elim]
theorem Run.watched {κ : Type} {note : ω → σ → τ → ι → List ε → List κ} {Holds : System σ τ ι → List κ → Prop}
    {s t : System σ τ ι} {noted : List κ} (run : (m.watch note).Run s t noted) (start : Holds s [])
    (preserved : ∀ {before own instruction rest after effect world shared noted},
      (m.watch note).Run s ⟨shared, before ++ ⟨own, instruction :: rest⟩ :: after⟩ noted →
      Holds ⟨shared, before ++ ⟨own, instruction :: rest⟩ :: after⟩ noted →
      m.perform world before.length shared own instruction rest = some effect →
      Holds ⟨effect.shared, before ++ effect.thread :: (after ++ effect.started)⟩
        (noted ++ note world shared own instruction effect.events)) : Holds t noted := by
  induction run with
  | start => exact start
  | @step t u noted more world i run stepped ih =>
    obtain ⟨before, own, instruction, rest, after, effect, threads, rfl, performed, rfl, rfl⟩ := watch_step_iff.mp stepped
    obtain ⟨shared, _⟩ := t
    cases threads
    exact preserved run ih performed

/-- The same machine before an observer who also sees which thread it is that does something. -/
def attributed (m : Machine σ τ ι ε ω) : Machine σ τ ι (Nat × ε) ω where
  perform world me shared own instruction rest :=
    (m.perform world me shared own instruction rest).map fun effect =>
      { shared := effect.shared, thread := effect.thread, started := effect.started, events := effect.events.map (me, ·) }

theorem step_of_attributed {world : ω} {i : Nat} {s u : System σ τ ι} {noted : List (Nat × ε)}
    (stepped : m.attributed.step world i s = some (u, noted)) :
    ∃ events, m.step world i s = some (u, events) ∧ noted = events.map (i, ·) := by
  obtain ⟨before, own, instruction, rest, after, _, threads, index, observed, rfl, rfl⟩ := step_eq_some_iff.mp stepped
  obtain ⟨effect, performed, rfl⟩ := Option.map_eq_some_iff.mp observed
  exact ⟨effect.events, step_eq_some_iff.mpr
    ⟨before, own, instruction, rest, after, effect, threads, index, performed, rfl, rfl⟩, rfl⟩

@[simp] theorem map_snd_attributed (i : Nat) (events : List ε) : (events.map (i, ·)).map Prod.snd = events := by
  rw [List.map_map]
  exact List.map_id events

theorem Run.of_attributed {s t : System σ τ ι} {seen : List (Nat × ε)} (run : m.attributed.Run s t seen) :
    m.Run s t (seen.map Prod.snd) := by
  induction run with
  | start => exact .start
  | step world i _ stepped ih =>
    obtain ⟨events, happened, rfl⟩ := step_of_attributed stepped
    rw [List.map_append, map_snd_attributed]
    exact ih.step world i happened

/-- What holds at the start and is preserved by every step of a run holds of what an observer sees who is also told which
thread it is. -/
@[elab_as_elim]
theorem Run.attested {κ : Type} {note : ω → σ → τ → ι → List ε → List κ} {Holds : System σ τ ι → List (Nat × κ) → Prop}
    {s t : System σ τ ι} {noted : List (Nat × κ)} (run : (m.watch note).attributed.Run s t noted) (start : Holds s [])
    (preserved : ∀ {before own instruction rest after effect world shared noted seen},
      m.Run s ⟨shared, before ++ ⟨own, instruction :: rest⟩ :: after⟩ seen →
      Holds ⟨shared, before ++ ⟨own, instruction :: rest⟩ :: after⟩ noted →
      m.perform world before.length shared own instruction rest = some effect →
      Holds ⟨effect.shared, before ++ effect.thread :: (after ++ effect.started)⟩
        (noted ++ (note world shared own instruction effect.events).map (before.length, ·))) : Holds t noted := by
  induction run with
  | start => exact start
  | @step t u noted more world i run stepped ih =>
    obtain ⟨events, watched, rfl⟩ := step_of_attributed stepped
    obtain ⟨before, own, instruction, rest, after, effect, threads, rfl, performed, rfl, rfl⟩ := watch_step_iff.mp watched
    obtain ⟨seen, plain⟩ := run.of_attributed.of_watch
    obtain ⟨shared, _⟩ := t
    cases threads
    exact preserved plain ih performed

/-- Every run has been seen by such an observer. -/
theorem Run.attribute {s t : System σ τ ι} {seen : List ε} (run : m.Run s t seen) :
    ∃ noted, m.attributed.Run s t noted ∧ noted.map Prod.snd = seen := by
  induction run with
  | start => exact ⟨[], .start, rfl⟩
  | @step t u seen events world i _ stepped ih =>
    obtain ⟨noted, run, rfl⟩ := ih
    obtain ⟨before, own, instruction, rest, after, effect, threads, index, performed, rfl, rfl⟩ :=
      step_eq_some_iff.mp stepped
    refine ⟨noted ++ effect.events.map (i, ·), run.step world i (step_eq_some_iff.mpr ?_), ?_⟩
    · exact ⟨before, own, instruction, rest, after, _, threads, index, Option.map_eq_some_iff.mpr ⟨effect, performed, rfl⟩,
        rfl, rfl⟩
    · rw [List.map_append, map_snd_attributed]

/-- The steps of the threads in a schedule, if all of them can be performed. -/
def follow (m : Machine σ τ ι ε ω) : List (ω × Nat) → System σ τ ι × List ε → Option (System σ τ ι × List ε)
  | [], past => some past
  | (world, i) :: schedule, (s, seen) =>
    (m.step world i s).bind fun (u, events) => m.follow schedule (u, seen ++ events)

theorem follow_append (one two : List (ω × Nat)) (past : System σ τ ι × List ε) :
    m.follow (one ++ two) past = (m.follow one past).bind (m.follow two) := by
  induction one generalizing past with
  | nil => rfl
  | cons next one ih =>
    obtain ⟨s, seen⟩ := past
    rw [List.cons_append, follow, follow, Option.bind_assoc]
    exact congrArg _ (funext fun _ => ih _)

/-- A thread that can perform its next instruction makes a step. -/
theorem step_middle {world : ω} {before after : List (Thread τ ι)} {shared : σ} {own : τ} {instruction : ι} {rest : List ι}
    {effect : Effect σ τ ι ε} (performed : m.perform world before.length shared own instruction rest = some effect) :
    m.step world before.length ⟨shared, before ++ ⟨own, instruction :: rest⟩ :: after⟩ =
      some (⟨effect.shared, before ++ effect.thread :: (after ++ effect.started)⟩, effect.events) :=
  step_eq_some_iff.mpr ⟨before, own, instruction, rest, after, effect, rfl, rfl, performed, rfl, rfl⟩

theorem run_of_follow {s u : System σ τ ι} {all : List ε} {schedule : List (ω × Nat)} : ∀ {t : System σ τ ι}
    {seen : List ε}, m.Run s t seen → m.follow schedule (t, seen) = some (u, all) → m.Run s u all := by
  induction schedule with
  | nil =>
    intro t seen run followed
    cases followed
    exact run
  | cons next schedule ih =>
    intro t seen run followed
    obtain ⟨⟨t', events⟩, stepped, followed⟩ := Option.bind_eq_some_iff.mp followed
    exact ih (run.step next.1 next.2 stepped) followed

end Machine

end PeerSubstrate.Concurrency
