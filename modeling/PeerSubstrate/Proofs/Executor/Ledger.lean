import PeerSubstrate.Proofs.Executor.Freight

/-!
# The account of entries

What an observer notes of entries adds up with what is in hand (`balance_of_run`): whatever is drawn, pushed, taken, thrown out
or queued again is in one place afterwards (`Conserved`), and every number is given to one task (`Numbered`).
-/

namespace PeerSubstrate.Executor.Pool
open PeerSubstrate.Time PeerSubstrate.Concurrency

/-- Both sides of an account go up by the same. -/
theorem perm_balance {α : Type} {credit debit now spent gone new others : List α} (kept : credit.Perm (debit ++ (gone ++ others)))
    (balanced : (gone ++ now).Perm (new ++ spent)) : (credit ++ now).Perm (debit ++ spent ++ (new ++ others)) := by
  classical
  rw [List.perm_iff_count] at kept balanced ⊢
  intro x
  have past := kept x
  have here := balanced x
  simp only [List.count_append] at past here ⊢
  omega

section Run

variable {config : Config} {calls : List (List Call)} {s : System State Own Instruction} {seen : List Movement}

private theorem freight_withClients (config : Config) (calls : List (List Call)) : freight (withClients config calls) = [] := by
  have none : (withClients config calls).todo.filterMap Instruction.freight? = [] := by
    refine List.filterMap_eq_nil_iff.mpr fun i member => ?_
    obtain ⟨thread, isThread, here⟩ := List.mem_flatMap.mp member
    have isInitial := initial_withClients isThread i here
    cases i <;> first | rfl | cases isInitial
  rw [freight, none]
  rfl

/-- What holds in the beginning and is preserved by every step, whatever it does with entries, holds along every run. -/
theorem Hauls.run (Holds : System State Own Instruction → List Movement → Prop)
    (run : (machine.watch movements).Run (withClients config calls) s seen) (start : Holds (withClients config calls) [])
    (preserved : ∀ {before own instruction rest after effect world shared seen gone new others},
      (machine.watch movements).Run (withClients config calls) ⟨shared, before ++ ⟨own, instruction :: rest⟩ :: after⟩ seen →
      Holds ⟨shared, before ++ ⟨own, instruction :: rest⟩ :: after⟩ seen →
      perform world before.length shared own instruction rest = some effect →
      Hauls world.now shared instruction gone new (movements world shared own instruction effect.events) →
      (freight ⟨shared, before ++ ⟨own, instruction :: rest⟩ :: after⟩).Perm (gone ++ others) →
      (freight ⟨effect.shared, before ++ effect.thread :: (after ++ effect.started)⟩).Perm (new ++ others) →
      Holds ⟨effect.shared, before ++ effect.thread :: (after ++ effect.started)⟩
        (seen ++ movements world shared own instruction effect.events)) : Holds s seen := by
  refine run.watched start fun {before own instruction rest after effect world shared seen} past holds performed => ?_
  obtain ⟨_, plain⟩ := past.of_watch
  have borne := Borne.run plain
  obtain ⟨gone, new, others, hauls, held, held'⟩ := freight_of_perform before after
    (borne.orderly _ mem_middle) (borne.unladen _ mem_middle) performed
  exact preserved past holds performed hauls held held'

/-- If every step balances, what has come in is what has gone out and what is in hand. -/
theorem balance_of_run {α : Type} {credit debit : Movement → Option α} {stock : Freight → Option α}
    (balanced : ∀ {now s i gone new notes}, Hauls now s i gone new notes →
      (gone.filterMap stock ++ notes.filterMap credit).Perm (new.filterMap stock ++ notes.filterMap debit))
    (run : (machine.watch movements).Run (withClients config calls) s seen) :
    (seen.filterMap credit).Perm (seen.filterMap debit ++ (freight s).filterMap stock) := by
  refine Hauls.run (fun s seen => (seen.filterMap credit).Perm (seen.filterMap debit ++ (freight s).filterMap stock))
    run ?_ ?_
  · rw [freight_withClients]
    exact .refl _
  · intro before own instruction rest after effect world shared seen gone new others _ kept _ hauls held held'
    have past := kept.trans ((held.filterMap stock).append_left _)
    have later := (held'.filterMap stock).append_left
      ((seen ++ movements world shared own instruction effect.events).filterMap debit)
    simp only [List.filterMap_append] at past later ⊢
    exact (perm_balance past (balanced hauls)).trans later.symm

end Run

/-- What stays the same of a task: its number, and how often it is due if it repeats. -/
def Work.kind : Work → Nat × Option Repeat
  | .once job => (job.task, none)
  | .periodic repeated => (repeated.task, some repeated.schedule)

/-- What stays the same of an entry whenever it is queued again: its sequence number and what stays the same of its task. -/
def identity (entry : Entry) : Nat × Nat × Option Repeat := (entry.seq, entry.task.kind)

namespace Freight

def coming? : Freight → Option Entry
  | .coming entry => some entry
  | _ => none

def queued? : Freight → Option Entry
  | .queued entry => some entry
  | _ => none

def leaving? : Freight → Option Work
  | .leaving work => some work
  | _ => none

def held? : Freight → Option (Nat × Nat × Option Repeat)
  | .held _ entry => some (identity ⟨entry.deadline, entry.seq, .periodic entry.task⟩)
  | _ => none

/-- An entry that has a number. -/
def identity? : Freight → Option (Nat × Nat × Option Repeat)
  | .coming entry | .queued entry => some (identity entry)
  | x => x.held?

end Freight

namespace Movement

def drawn? : Movement → Option Entry
  | .drawn entry => some entry
  | _ => none

/-- An entry is going to be queued. -/
def numbered? : Movement → Option Entry
  | .drawn entry | .requeued entry => some entry
  | _ => none

/-- An entry has come to the queue. -/
def arrived? : Movement → Option Entry
  | .pushed entry | .refused entry => some entry
  | _ => none

def pushed? : Movement → Option Entry
  | .pushed entry => some entry
  | _ => none

/-- An entry has left the queue. -/
def left? : Movement → Option Entry
  | .took entry | .evicted entry => some entry
  | _ => none

/-- A task has to be given up. -/
def spurned? : Movement → Option Work
  | .refused entry | .evicted entry => some entry.task
  | _ => none

def gaveUp? : Movement → Option Work
  | .gaveUp work => some work
  | _ => none

/-- A worker has taken an entry of a repeating task, -/
def fetched? : Movement → Option (Nat × Nat × Option Repeat)
  | .took entry => match entry.task with
    | .once _ => none
    | .periodic _ => some (identity entry)
  | _ => none

/-- and is ready with it. -/
def returned? : Movement → Option (Nat × Nat × Option Repeat)
  | .requeued entry => some (identity entry)
  | .over entry => some (identity ⟨entry.deadline, entry.seq, .periodic entry.task⟩)
  | _ => none

/-- An entry does not come back. -/
def closed? : Movement → Option (Nat × Nat × Option Repeat)
  | .refused entry | .evicted entry => some (identity entry)
  | .took entry => match entry.task with
    | .once _ => some (identity entry)
    | .periodic _ => none
  | .over entry => some (identity ⟨entry.deadline, entry.seq, .periodic entry.task⟩)
  | _ => none

end Movement

open Freight Movement

section Hauls

variable {now : Instant} {s : State} {i : Instruction} {gone new : List Freight} {notes : List Movement}

private theorem Hauls.arrivals (hauls : Hauls now s i gone new notes) :
    (gone.filterMap coming? ++ notes.filterMap numbered?).Perm (new.filterMap coming? ++ notes.filterMap arrived?) := by
  cases hauls with
  | @took entry =>
    obtain ⟨deadline, seq, work⟩ := entry
    cases work <;> exact .refl _
  | evicted => simp [List.filterMap_map, Function.comp_def, coming?, numbered?, arrived?]
  | _ => exact .refl _

private theorem Hauls.queue (hauls : Hauls now s i gone new notes) :
    (gone.filterMap queued? ++ notes.filterMap pushed?).Perm (new.filterMap queued? ++ notes.filterMap left?) := by
  cases hauls with
  | @took entry =>
    obtain ⟨deadline, seq, work⟩ := entry
    cases work <;> exact .refl _
  | evicted => simp [List.filterMap_map, Function.comp_def, queued?, pushed?, left?]
  | _ => exact .refl _

private theorem Hauls.abandons (hauls : Hauls now s i gone new notes) :
    (gone.filterMap leaving? ++ notes.filterMap spurned?).Perm (new.filterMap leaving? ++ notes.filterMap gaveUp?) := by
  cases hauls with
  | @took entry =>
    obtain ⟨deadline, seq, work⟩ := entry
    cases work <;> exact .refl _
  | evicted => simp [List.filterMap_map, Function.comp_def, leaving?, spurned?, gaveUp?]
  | _ => exact .refl _

private theorem Hauls.returns (hauls : Hauls now s i gone new notes) :
    (gone.filterMap held? ++ notes.filterMap fetched?).Perm (new.filterMap held? ++ notes.filterMap returned?) := by
  cases hauls with
  | @took entry =>
    obtain ⟨deadline, seq, work⟩ := entry
    cases work <;> exact .refl _
  | evicted => simp [List.filterMap_map, Function.comp_def, held?, fetched?, returned?]
  | _ => exact .refl _

private theorem Hauls.closures (hauls : Hauls now s i gone new notes) :
    (gone.filterMap identity? ++ notes.filterMap fun note => note.drawn?.map identity).Perm
      (new.filterMap identity? ++ notes.filterMap closed?) := by
  cases hauls with
  | @took entry =>
    obtain ⟨deadline, seq, work⟩ := entry
    cases work <;> exact .refl _
  | evicted => simp [List.filterMap_map, Function.comp_def, identity?, held?, drawn?, closed?]
  | _ => exact .refl _

/-- Whatever is queued again, a worker has had it in hand. -/
theorem Hauls.requeued {entry : Entry} (hauls : Hauls now s i gone new notes) (returns : .requeued entry ∈ notes) :
    ∃ x ∈ gone, x.identity? = some (identity entry) := by
  cases hauls with
  | renewed =>
    cases List.mem_singleton.mp returns
    exact ⟨_, List.mem_singleton_self _, rfl⟩
  | _ => simp at returns

end Hauls

/-- The new entry, if the instruction draws a number. -/
def Instruction.draws (s : State) : Instruction → List Entry
  | .draw deadline work _ => [⟨deadline, s.scheduled.nextSeq, work⟩]
  | _ => []

private theorem drawn_movements (world : World) (s : State) (own : Own) (i : Instruction) (events : List Event) :
    (movements world s own i events).filterMap drawn? = i.draws s := by
  have none : (events.filterMap Event.movement?).filterMap drawn? = [] := by
    refine List.filterMap_eq_nil_iff.mpr fun note member => ?_
    obtain ⟨event, -, isNote⟩ := List.mem_filterMap.mp member
    cases event <;> cases isNote <;> rfl
  rw [movements, List.filterMap_append, none, List.append_nil]
  cases i with
  | push | run | fire | count | recheck =>
    simp only [Instruction.movements]
    split <;> rfl
  | take | renew =>
    simp only [Instruction.movements]
    split <;> rfl
  | closeScheduled =>
    rw [Instruction.movements, List.filterMap_map]
    exact List.filterMap_eq_nil_iff.mpr fun _ _ => rfl
  | _ => rfl

/-- Numbers are given out one after another. -/
theorem nextSeq_of_perform {world : World} {me : Nat} {s : State} {own : Own} {instruction : Instruction}
    {rest : List Instruction} {effect : Effect State Own Instruction Event}
    (performed : perform world me s own instruction rest = some effect) :
    effect.shared.scheduled.nextSeq = s.scheduled.nextSeq + (instruction.draws s).length := by
  by_cases outside : instruction.pooled = false
  · have none : instruction.draws s = [] := by cases instruction <;> first | rfl | cases outside
    rw [(aside_of_perform outside performed).scheduled, none]
    rfl
  cases instruction with
  | immediate step =>
    obtain ⟨_, -, rfl⟩ := Option.map_eq_some_iff.mp performed
    rfl
  | funnel | closeImmediate | closeScheduled | draw =>
    cases performed
    rfl
  | push entry =>
    simp only [perform, Scheduled.Shared.push?] at performed
    split at performed
    · next pushed =>
      split at pushed <;> cases pushed
      cases performed
      rfl
    · cases performed
      rfl
  | take =>
    simp only [perform, performTake] at performed
    split at performed
    · cases performed
      rfl
    · cases performed
    · next taken =>
      obtain ⟨-, -, queue, -, rfl⟩ := take_eq_due taken
      split at performed <;> cases performed <;> rfl
  | _ => exact absurd rfl outside

/-! ## Runs -/

/-- No entry is lost, and none is there twice. What has been numbered or queued again has come to the queue or is on its
way; what has been pushed has been taken or thrown out or is in the queue; what has been refused or thrown out has been
given up or is about to be; a repeating task that has been taken has been queued again or has ended or is in the hands
of a worker. Every number belongs to an entry that has been closed or is in one place. Numbers are given out one after
another, and an entry that is queued again keeps its number. -/
structure Conserved (s : System State Own Instruction) (seen : List Movement) : Prop where
  arrivals : (seen.filterMap numbered?).Perm (seen.filterMap arrived? ++ (freight s).filterMap coming?)
  queue : (seen.filterMap pushed?).Perm (seen.filterMap left? ++ s.shared.scheduled.queue)
  abandons : (seen.filterMap spurned?).Perm (seen.filterMap gaveUp? ++ (freight s).filterMap leaving?)
  returns : (seen.filterMap fetched?).Perm (seen.filterMap returned? ++ (freight s).filterMap held?)
  closures : ((seen.filterMap drawn?).map identity).Perm (seen.filterMap closed? ++ (freight s).filterMap identity?)
  numbers : (seen.filterMap drawn?).map Scheduled.Entry.seq = List.range s.shared.scheduled.nextSeq
  rooted : ∀ entry, .requeued entry ∈ seen → identity entry ∈ (seen.filterMap drawn?).map identity

section Run

variable {config : Config} {calls : List (List Call)} {s : System State Own Instruction} {seen : List Movement}

theorem queued_freight (s : System State Own Instruction) : (freight s).filterMap queued? = s.shared.scheduled.queue := by
  have coming : (s.shared.funnel.queue.map Freight.coming).filterMap queued? = [] :=
    List.filterMap_eq_nil_iff.mpr fun x member => by
      obtain ⟨entry, -, rfl⟩ := List.mem_map.mp member
      rfl
  have inHand : (s.todo.filterMap Instruction.freight?).filterMap queued? = [] :=
    List.filterMap_eq_nil_iff.mpr fun x member => by
      obtain ⟨i, -, holds⟩ := List.mem_filterMap.mp member
      cases i with
      | funnel step => cases step <;> cases holds <;> rfl
      | _ => cases holds <;> rfl
  have queue : (s.shared.scheduled.queue.map Freight.queued).filterMap queued? = s.shared.scheduled.queue := by
    rw [List.filterMap_map]
    exact List.filterMap_some
  rw [freight, State.freight, List.filterMap_append, List.filterMap_append, coming, inHand, queue]
  exact List.append_nil _

private theorem closures_of_run (run : (machine.watch movements).Run (withClients config calls) s seen) :
    ((seen.filterMap drawn?).map identity).Perm (seen.filterMap closed? ++ (freight s).filterMap identity?) := by
  rw [List.map_filterMap]
  exact balance_of_run Hauls.closures run

private theorem numbers_of_run (run : (machine.watch movements).Run (withClients config calls) s seen) :
    (seen.filterMap drawn?).map Scheduled.Entry.seq = List.range s.shared.scheduled.nextSeq := by
  refine run.watched rfl ?_
  intro before own instruction rest after effect world shared seen _ numbers performed
  rw [List.filterMap_append, List.map_append, numbers, drawn_movements, nextSeq_of_perform performed]
  cases instruction <;> first | exact List.range_succ.symm | exact List.append_nil _

private theorem rooted_of_run (run : (machine.watch movements).Run (withClients config calls) s seen) {entry : Entry}
    (returns : .requeued entry ∈ seen) : identity entry ∈ (seen.filterMap drawn?).map identity := by
  refine Hauls.run (fun _ seen => .requeued entry ∈ seen → identity entry ∈ (seen.filterMap drawn?).map identity)
    run ?_ ?_ returns
  · exact fun member => absurd member List.not_mem_nil
  · intro before own instruction rest after effect world shared seen gone new others past rooted _ hauls held _ member
    rw [List.filterMap_append, List.map_append]
    refine List.mem_append_left _ ?_
    rcases List.mem_append.mp member with earlier | now
    · exact rooted earlier
    · obtain ⟨x, there, same⟩ := hauls.requeued now
      have inHand : identity entry ∈ (freight ⟨shared, before ++ ⟨own, instruction :: rest⟩ :: after⟩).filterMap identity? :=
        List.mem_filterMap.mpr ⟨_, held.symm.subset (List.mem_append_left _ there), same⟩
      exact (closures_of_run past).symm.subset (List.mem_append_right _ inHand)

theorem Conserved.run (run : (machine.watch movements).Run (withClients config calls) s seen) : Conserved s seen where
  arrivals := balance_of_run Hauls.arrivals run
  queue := queued_freight s ▸ balance_of_run Hauls.queue run
  abandons := balance_of_run Hauls.abandons run
  returns := balance_of_run Hauls.returns run
  closures := closures_of_run run
  numbers := numbers_of_run run
  rooted := fun _ => rooted_of_run run

end Run

end PeerSubstrate.Executor.Pool
