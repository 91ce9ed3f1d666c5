import PeerSubstrate.Proofs.Reactor.Desertion
import PeerSubstrate.Proofs.Reactor.Tokens

/-!
# What is watched

What the poller watches and what the worker's table asks for are two copies of one thing. Between two rounds they agree: there
is one watch for each live connection that has an interest, under its token and for that interest, and no other
(`watched_as_wanted`). Connections may share a descriptor; what matters is that each of them keeps its own (`steady`).
-/

namespace PeerSubstrate.Reactor
open PeerSubstrate.Concurrency

/-- A watch as the poller has been told: under which token, at which descriptor, and for what. -/
def Watch.terms (w : Watch) : Nat × Option Nat × Interest := (w.token, some w.descriptor, w.interest)

/-- How a connection of the table is to be watched, unless it is paused. -/
def wanted? (descriptors : Nat → Option Nat) (entry : Nat × Connection) : Option (Nat × Option Nat × Interest) :=
  entry.2.interest.map fun interest => (entry.1, descriptors entry.1, interest)

/-- The poller watches what the table asks for. -/
structure Watched (descriptors : Nat → Option Nat) (live : Live) (poller : Poller) : Prop where
  agree : (poller.map Watch.terms).Perm (live.filterMap (wanted? descriptors))
  distinct : (poller.map Watch.descriptor).Nodup

section Connection

variable {descriptors : Nat → Option Nat} {token selectable : Nat} {before after live live' : Live} {poller poller' : Poller}
  {interest : Option Interest} {result : Applied}

private theorem Watched.nil : Watched descriptors [] [] := ⟨List.Perm.refl _, List.nodup_nil⟩

/-- Nothing is asked for a connection that is paused. -/
theorem watched_paused_iff :
    Watched descriptors (before ++ (token, ⟨selectable, none⟩) :: after) poller ↔ Watched descriptors (before ++ after) poller := by
  have same : (before ++ (token, ⟨selectable, none⟩) :: after).filterMap (wanted? descriptors) =
      (before ++ after).filterMap (wanted? descriptors) := by
    rw [List.filterMap_append, List.filterMap_cons_none rfl, ← List.filterMap_append]
  constructor
  · exact fun watched => ⟨same ▸ watched.agree, watched.distinct⟩
  · exact fun watched => ⟨same.symm ▸ watched.agree, watched.distinct⟩

/-- The watch of one connection, apart from all others: it is the only one of its descriptor. -/
theorem watched_cons_iff {wish : Interest} :
    Watched descriptors (before ++ (token, ⟨selectable, some wish⟩) :: after) poller ↔
      ∃ early w late, poller = early ++ w :: late ∧ w.terms = (token, descriptors token, wish) ∧
        (∀ other ∈ early ++ late, other.descriptor ≠ w.descriptor) ∧ Watched descriptors (before ++ after) (early ++ late) := by
  have asked : (before ++ (token, ⟨selectable, some wish⟩) :: after).filterMap (wanted? descriptors) =
      before.filterMap (wanted? descriptors) ++ (token, descriptors token, wish) :: after.filterMap (wanted? descriptors) := by
    rw [List.filterMap_append, List.filterMap_cons_some (f := wanted? descriptors) rfl]
  have apart : ∀ {early late : Poller} {w : Watch}, ((early ++ w :: late).map Watch.descriptor).Nodup ↔
      (∀ other ∈ early ++ late, other.descriptor ≠ w.descriptor) ∧ ((early ++ late).map Watch.descriptor).Nodup := by
    intro early late w
    rw [List.map_append, List.map_cons, List.nodup_middle, ← List.map_append, List.nodup_cons, List.mem_map]
    simp only [not_exists, not_and, ne_eq]
  have moved : ∀ {early late : Poller} {w : Watch}, w.terms = (token, descriptors token, wish) →
      (((early ++ w :: late).map Watch.terms).Perm
          (before.filterMap (wanted? descriptors) ++ (token, descriptors token, wish) :: after.filterMap (wanted? descriptors)) ↔
        ((early ++ late).map Watch.terms).Perm ((before ++ after).filterMap (wanted? descriptors))) := by
    intro early late w terms
    rw [List.map_append, List.map_cons, terms, List.map_append, List.filterMap_append]
    exact (List.perm_middle.congr_left _).trans ((List.perm_middle.congr_right _).trans (List.perm_cons _))
  constructor
  · rintro ⟨agree, distinct⟩
    rw [asked] at agree
    have member : (token, descriptors token, wish) ∈ poller.map Watch.terms := agree.mem_iff.mpr (by simp)
    obtain ⟨w, here, terms⟩ := List.mem_map.mp member
    obtain ⟨early, late, rfl⟩ := List.append_of_mem here
    obtain ⟨others, distinct⟩ := apart.mp distinct
    exact ⟨early, w, late, rfl, terms, others, (moved terms).mp agree, distinct⟩
  · rintro ⟨early, w, late, rfl, terms, others, agree, distinct⟩
    exact ⟨asked.symm ▸ (moved terms).mpr agree, apart.mpr ⟨others, distinct⟩⟩

/-- A connection comes to be watched for something else, or it is refused, which does not happen to one that has been
watched. -/
theorem Watched.rewatch (interest' : Option Interest)
    (watched : Watched descriptors (before ++ (token, ⟨selectable, interest⟩) :: after) poller) :
    match rewatch? (descriptors token) token interest interest' poller with
    | some poller' => Watched descriptors (before ++ (token, ⟨selectable, interest'⟩) :: after) poller'
    | none => Watched descriptors (before ++ after) poller := by
  cases interest with
  | none =>
    have others := watched_paused_iff.mp watched
    cases interest' with
    | none => exact watched
    | some wish =>
      -- The descriptor may be closed, or another connection may be watched at it.
      cases isOpen : descriptors token with
      | none => exact others
      | some d =>
        cases used : poller.watches d with
        | true =>
          simp only [rewatch?, Poller.register?, used, if_true]
          exact others
        | false =>
          simp only [rewatch?, Poller.register?, used, Bool.false_eq_true, if_false]
          refine watched_cons_iff.mpr ⟨poller, _, [], rfl, by rw [isOpen]; rfl, fun other member => ?_, ?_⟩
          · rw [List.append_nil] at member
            exact fun same => Bool.eq_false_iff.mp used (List.any_eq_true.mpr ⟨other, member, beq_iff_eq.mpr same⟩)
          · rwa [List.append_nil]
  | some wish =>
    obtain ⟨early, w, late, rfl, terms, others, rest⟩ := watched_cons_iff.mp watched
    obtain ⟨isToken, isOpen, -⟩ : w.token = token ∧ some w.descriptor = descriptors token ∧ w.interest = wish := by
      simpa [Watch.terms] using terms
    have used : Poller.watches (early ++ w :: late) w.descriptor = true := by simp [Poller.watches]
    rw [← isOpen]
    cases interest' with
    | none =>
      simp only [rewatch?, Poller.deregister?, used, if_true]
      have left : (early ++ w :: late).filter (·.descriptor != w.descriptor) = early ++ late := by
        rw [List.filter_append, List.filter_cons_of_neg (by simp), ← List.filter_append]
        exact List.filter_eq_self.mpr fun other member => bne_iff_ne.mpr (others other member)
      rw [left]
      exact watched_paused_iff.mpr rest
    | some wish' =>
      simp only [rewatch?, Poller.reregister?, used, if_true]
      have kept : ∀ part : Poller, (∀ other ∈ part, other ∈ early ++ late) →
          (part.map fun o => if o.descriptor = w.descriptor then { o with token, interest := wish', due := true } else o) = part := by
        intro part within
        refine (List.map_congr_left fun other member => ?_).trans (List.map_id part)
        exact if_neg (others other (within other member))
      rw [List.map_append, List.map_cons, if_pos rfl, kept early fun _ => List.mem_append_left _,
        kept late fun _ => List.mem_append_right _]
      exact watched_cons_iff.mpr ⟨early, _, late, rfl, by rw [← isOpen]; rfl, others, rest⟩

/-- Whatever becomes of a connection, the poller is told. -/
theorem Watched.apply {fate : Fate} (watched : Watched descriptors live poller) (distinct : (live.map Prod.fst).Nodup)
    (applied : applyFate (descriptors token) token fate live poller = (result, live', poller')) :
    Watched descriptors live' poller' := by
  unfold applyFate at applied
  split at applied
  · cases applied
    exact watched
  · next connection known =>
    obtain ⟨before, after, rfl, others⟩ := Live.split known distinct
    cases fate with
    | detach =>
      cases applied
      rw [Live.remove_of_split others]
      obtain ⟨selectable, interest⟩ := connection
      cases interest with
      | none => exact watched_paused_iff.mp watched
      | some wish =>
        have left := watched.rewatch none
        cases done : rewatch? (descriptors token) token (some wish) none poller with
        | none =>
          have gone : poller.deregister? (descriptors token) = none := done
          rw [done] at left
          simpa [gone] using left
        | some poller' =>
          have gone : poller.deregister? (descriptors token) = some poller' := done
          rw [done] at left
          simpa [gone] using watched_paused_iff.mp left
    | interest interest =>
      have left := watched.rewatch interest
      dsimp only at applied
      split at applied
      · next poller' accepted =>
        cases applied
        rw [accepted] at left
        rw [Live.setInterest_of_split others]
        exact left
      · next refused =>
        cases applied
        rw [refused] at left
        rw [Live.remove_of_split others]
        exact left

end Connection

namespace Instruction

/-- The connection that is about to be taken in, and is watched already. -/
def admits? : Instruction → Option (Nat × Connection)
  | .insert token connection => some (token, connection)
  | _ => none

private theorem admits?_of_settled {i : Instruction} (settled : i.newcomer? = none) : i.admits? = none := by
  cases i <;> first | rfl | cases settled

end Instruction

/-- A worker has ended a round, and has not begun to serve in the next one. -/
def BetweenRounds (todo : List Instruction) : Prop := ∃ i p, todo = [i] ∧ i.phase? = some p ∧ p.serving = false

/-- The descriptor of a connection is always the same. -/
def steady (descriptors : Nat → Option Nat) (world : World) : Instruction → Bool
  | .enroll _ token | .apply token _ => world.descriptor = descriptors token
  | _ => true

/-- Both copies agree at any point of the loop, but for a connection that is about to be taken in. The number that is published
is that of the connections there were at the end of the round. -/
structure Tallied (descriptors : Nat → Option Nat) (b : Bench) (todo : List Instruction) : Prop where
  serving : Serving b todo
  watched : Watched descriptors (b.live ++ todo.filterMap Instruction.admits?) b.poller
  counted : BetweenRounds todo ∨ todo = [] → b.connections = b.live.length

section Stint

variable {descriptors : Nat → Option Nat} {world : World} {b b' : Bench} {instruction : Instruction}
  {rest todo : List Instruction} {events : List Event}

private theorem Watched.reported {live : Live} {poller : Poller} (reports : List Readiness)
    (watched : Watched descriptors live poller) :
    Watched descriptors live (poller.reported reports) := by
  have terms : (poller.reported reports).map Watch.terms = poller.map Watch.terms := by
    rw [Poller.reported, List.map_map]
    refine List.map_congr_left fun w _ => ?_
    simp only [Function.comp_apply]
    split <;> rfl
  have places : (poller.reported reports).map Watch.descriptor = poller.map Watch.descriptor := by
    rw [Poller.reported, List.map_map]
    refine List.map_congr_left fun w _ => ?_
    simp only [Function.comp_apply]
    split <;> rfl
  exact ⟨terms ▸ watched.agree, places ▸ watched.distinct⟩

private theorem Stint.watched (stint : Stint world b instruction rest events b' todo)
    (serving : Serving b (instruction :: rest))
    (same : steady descriptors world instruction = true)
    (watched : Watched descriptors (b.live ++ (instruction :: rest).filterMap Instruction.admits?) b.poller) :
    Watched descriptors (b'.live ++ todo.filterMap Instruction.admits?) b'.poller := by
  have framed := stint.frame Instruction.admits?_of_settled
  have kept : instruction ≠ .attach → instruction.newcomer? = none → ∀ {poller}, Watched descriptors (b.live ++
      (instruction :: rest).filterMap Instruction.admits?) poller → Watched descriptors (b.live ++ todo.filterMap Instruction.admits?) poller := by
    intro apart settled poller watched
    rw [List.filterMap_cons_none (Instruction.admits?_of_settled settled)] at watched
    rwa [framed apart settled]
  cases stint with
  | attach | attached | refuse | breakDown => exact watched
  | @accept selectable token interest poller _ registered =>
    have paused : Watched descriptors (b.live ++ [(token, ⟨selectable, none⟩)]) b.poller := watched_paused_iff.mpr watched
    have left := paused.rewatch interest
    rw [← of_decide_eq_true same, registered] at left
    exact left
  | insert =>
    rw [List.append_assoc]
    exact watched
  | poll reports => exact (kept (by simp) rfl watched).reported reports
  | apply applied =>
    -- Nothing is taken in while changes are applied.
    have none : rest.filterMap Instruction.admits? = [] := by
      refine List.filterMap_eq_nil_iff.mpr fun i member => Instruction.admits?_of_settled (Instruction.newcomer?_of_phase ?_)
      intro attaching
      cases serving.inPhase.alike (List.mem_cons_of_mem _ member) (List.mem_cons_self ..) attaching rfl
    rw [List.filterMap_cons_none rfl, none, List.append_nil] at watched
    rw [framed (by simp) rfl, none, List.append_nil]
    rw [of_decide_eq_true same] at applied
    exact watched.apply (List.nodup_append.mp serving.distinct).1 applied
  | aside _ idle =>
    refine kept ?_ (Instruction.newcomer?_of_idle idle) watched
    rintro rfl
    cases idle
  | look here => rcases here with rfl | rfl <;> exact kept (by simp) rfl watched
  | again here => rcases here with rfl | rfl <;> exact kept (by simp) rfl watched
  | depart here =>
    refine kept ?_ (Instruction.newcomer?_of_phase (by rw [here]; simp)) watched
    rintro rfl
    cases here
  | _ => exact kept (by simp) rfl watched

private theorem Stint.counted (stint : Stint world b instruction rest events b' todo)
    (tallied : Tallied descriptors b (instruction :: rest))
    (answered : answers world instruction = true) (ended : BetweenRounds todo ∨ todo = []) : b'.connections = b'.live.length := by
  have inPhase := tallied.serving.inPhase
  have before : ∀ {p}, instruction.phase? = some p → p.serving = false → b.connections = b.live.length := by
    intro p here resting
    exact tallied.counted (.inl ⟨instruction, p, inPhase.alone (List.mem_cons_self ..) here resting, here, resting⟩)
  rcases ended with ⟨i, p, isTodo, isPhase, resting⟩ | empty
  · rcases stint.resting inPhase (isTodo ▸ List.mem_singleton_self i) isPhase resting with ⟨-, published⟩ | ⟨rfl, q, here, quiet, -⟩
    · exact published
    · exact before here quiet
  · rcases stint.stays (tallied.serving.inside.resolve_left (List.cons_ne_nil _ _)) with stays | ⟨-, ⟨rfl, rfl⟩ | silent⟩
    · rw [empty] at stays
      cases stays
    · exact before rfl rfl
    · cases answered.symm.trans silent

private theorem Tallied.proceeds (tallied : Tallied descriptors b rest) (same : steady descriptors world instruction = true)
    (answered : answers world instruction = true) (proceeds : Proceeds world instruction events b rest b' todo) :
    Tallied descriptors b' todo := by
  have serving := tallied.serving.proceeds proceeds
  cases proceeds with
  | aside => exact tallied
  | enter => exact ⟨serving, tallied.watched, fun _ => tallied.counted (.inr rfl)⟩
  | work stint => exact ⟨serving, stint.watched tallied.serving same tallied.watched, stint.counted tallied answered⟩

end Stint

/-! ## Runs -/

section Run

variable {idleIterations : Nat} {calls : List (List Call)} {descriptors : Nat → Option Nat} {s : System State Own Instruction}
  {seen : List Event}

theorem Tallied.run (run : ((machine.restrict (steady descriptors)).restrict answers).Run (callers idleIterations calls) s seen) :
    Tended True s ∧ Tallied descriptors (benchOf s) (workerOf s).todo := by
  refine run.invariant ?_ ?_
  · rw [benchOf, workerOf_callers]
    exact ⟨.start _ _ _, .start, .nil, fun _ => rfl⟩
  · rintro before own instruction rest after effect world shared - ⟨tended, tallied⟩ performed
    obtain ⟨answered, performed⟩ := Machine.restrict_perform.mp performed
    obtain ⟨same, performed⟩ := Machine.restrict_perform.mp performed
    exact ⟨tended.step (fun _ => answered) performed, tallied.proceeds same answered (tended.proceeds answered performed)⟩

/-- Between two rounds the poller watches every live connection that has an interest once, under its token and for this
interest, and nothing else; and the number of connections that is published is that of the live ones. -/
theorem watched_as_wanted (run : (machine.restrict (steady descriptors)).Run (callers idleIterations calls) s seen)
    {worker : Thread Own Instruction} (member : worker ∈ s.threads) (ended : BetweenRounds worker.todo) :
    (s.shared.poller.map Watch.terms).Perm (worker.own.live.filterMap (wanted? descriptors)) ∧
      (worker.own.live.map Prod.fst).Nodup ∧ s.shared.connections = worker.own.live.length := by
  obtain ⟨i, p, isTodo, isPhase, resting⟩ := ended
  have means : ∀ {world me s own instruction rest effect},
      (machine.restrict (steady descriptors)).perform world me s own instruction rest = some effect →
      perform world me s own instruction rest = some effect := fun performed => (Machine.restrict_perform.mp performed).2
  rcases answered_or_deserted means run with run | deserted
  · obtain ⟨tended, tallied⟩ := Tallied.run run
    have inside : inLoop worker = true := by
      rw [inLoop, isTodo]
      exact (congrArg _ (@post?_last [] i (by simp))).trans (Instruction.inLoop_of_resting isPhase resting)
    rw [benchOf, tended.elected.isWorker member inside, isTodo] at tallied
    have none : [i].filterMap Instruction.admits? = [] := by
      refine List.filterMap_cons_none (Instruction.admits?_of_settled (Instruction.newcomer?_of_phase ?_))
      rw [isPhase]
      rintro ⟨⟩
      cases resting
    have watched := tallied.watched
    rw [none, List.append_nil] at watched
    exact ⟨watched.agree, (List.nodup_append.mp tallied.serving.distinct).1, tallied.counted (.inl ⟨i, p, rfl, isPhase, resting⟩)⟩
  · have outward := (deserted.outward worker member i (isTodo ▸ List.mem_singleton_self i)).1
    cases (Instruction.phase?_of_outward outward).symm.trans isPhase

end Run

/-- A thread registers three connections and wants the second one, which is paused at first, to be watched. -/
def threeRegistrations : System State Own Instruction :=
  callers 1 [[.register 7, .register 8, .register 9, .change (.interest 2 (some .writable))]]

/-- All three have the same descriptor, so only the first one can be watched: the third one is refused, and the second one is
dropped when it is to be watched. -/
def oneDescriptor : List (World × Nat) :=
  (List.replicate 15 0 ++ List.replicate 12 1).map ({ interest := some (some .readable), descriptor := some 5 }, ·) ++
    ({ descriptor := some 5 }, 1) ::
    (List.replicate 11 1).map ({ interest := some (some .readable), descriptor := some 5 }, ·)

/-- What is left after the first round is the first connection and its watch. -/
theorem first_connection_watched : ∃ s seen, (machine.restrict (steady fun _ => some 5)).Run threeRegistrations s seen ∧
    ∃ worker ∈ s.threads, BetweenRounds worker.todo ∧ worker.own.live = [(1, ⟨7, some .readable⟩)] ∧
      (s.shared.poller.map Watch.terms).Perm [(1, some 5, .readable)] ∧ s.shared.connections = 1 := by
  have ends : ((machine.restrict (steady fun _ => some 5)).follow oneDescriptor (threeRegistrations, [])).map
      (fun past => past.1.threads.map fun thread => (thread.own.live, thread.todo)) =
      some [([], []), ([(1, ⟨7, some .readable⟩)], [.decide])] := by decide
  obtain ⟨⟨s, seen⟩, followed, same⟩ := Option.map_eq_some_iff.mp ends
  have run := Machine.run_of_follow .start followed
  have there : ([(1, ⟨7, some .readable⟩)], [.decide]) ∈ s.threads.map fun thread => (thread.own.live, thread.todo) :=
    same ▸ by simp
  obtain ⟨worker, member, isWorker⟩ := List.mem_map.mp there
  obtain ⟨live, todo⟩ := Prod.mk.inj isWorker
  have ended : BetweenRounds worker.todo := ⟨.decide, .deciding, todo, rfl, rfl⟩
  obtain ⟨agree, -, counted⟩ := watched_as_wanted run member ended
  rw [live] at agree counted
  exact ⟨s, seen, run, worker, member, ended, live, agree, counted⟩

end PeerSubstrate.Reactor
