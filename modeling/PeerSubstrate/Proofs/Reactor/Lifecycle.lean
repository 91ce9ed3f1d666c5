import PeerSubstrate.Proofs.Reactor.Lives
import PeerSubstrate.Proofs.Reactor.Tokens

/-!
# Every connection has its life

What the worker has to do tells how the life of a connection goes on, whatever the world does meanwhile (`Ahead`). Each stint
leads to the next stage, so no trace of a run breaks off the life of any connection (`connection_lives`).
-/

namespace PeerSubstrate.Reactor
open PeerSubstrate.Concurrency

/-- Nothing is to be told in this round. -/
def Mood.Calm (mood : Mood) : Prop := mood = .settled ∨ mood = .changed

/-- The connection of the table, if there is one, is live in such a mood; without one, none is live. -/
def Stage.Fits (ok : Mood → Prop) : Stage → Option Nat → Prop
  | .live selectable mood, some other => other = selectable ∧ ok mood
  | .unknown, none | .gone, none => True
  | _, _ => False

/-- The mood of all connections when the worker stands at this point of its loop. -/
def Instruction.expects? : Instruction → Option (Mood → Prop)
  | .announce | .publish | .decide | .vacate | .inspect | .regain | .retire => some Mood.Calm
  | .seeRegistrations | .seeChanges | .poll _ | .tickAll => some (· = .due)
  | .attach | .drain | .applyAll => some (· = .settled)
  | _ => none

/-- What is still to be done leads the connection under the token on from this stage, where `entry` tells whose it is if it is
in the table. -/
def Ahead (token : Nat) : List Instruction → Stage → Option Nat → Prop
  | [], stage, entry => stage.Fits Mood.Calm entry
  | i :: rest, stage, entry =>
    match i with
    | .dispatch report => (report.token = token → stage.Fits (· = .due) entry) ∧ Ahead token rest stage entry
    | .call selectable other callback =>
      if other = token then
        ∃ stage', stage.hear (.called selectable other callback) = some stage' ∧ Ahead token rest stage' entry
      else Ahead token rest stage entry
    | .enroll _ other => if other = token then stage = .unknown ∧ entry = none else Ahead token rest stage entry
    | .insert other connection =>
      if other = token then entry = none ∧ Ahead token rest stage (some connection.selectable) else Ahead token rest stage entry
    | .apply other _ =>
      if other = token then stage.Fits (· = .settled) entry ∧
        ∀ stage' entry', stage'.Fits Mood.Calm entry' → Ahead token rest stage' entry'
      else Ahead token rest stage entry
    | i =>
      match i.expects? with
      | some ok => stage.Fits ok entry
      | none => Ahead token rest stage entry

/-- What is seen leads the connection to a stage from which it is led on. -/
def Leads (token : Nat) (stage : Stage) (trace : List Moment) (todo : List Instruction) (entry : Option Nat) : Prop :=
  ∃ stage', Stage.after token stage trace = some stage' ∧ Ahead token todo stage' entry

/-- It is about another connection. -/
def Instruction.Foreign (token : Nat) : Instruction → Prop
  | .call _ other _ | .apply other _ => other ≠ token
  | i => i.idle = true

section Ahead

variable {token : Nat} {stage : Stage} {entry : Option Nat} {i : Instruction} {more rest : List Instruction}
  {ok ok' : Mood → Prop}

private theorem Stage.Fits.imp (fits : stage.Fits ok entry) (weaker : ∀ mood, ok mood → ok' mood) : stage.Fits ok' entry := by
  unfold Fits at fits
  split at fits
  · exact ⟨fits.1, weaker _ fits.2⟩
  · trivial
  · trivial
  · exact fits.elim

private theorem ahead_of_leaving (leaving : i.phase? = some .leaving) :
    Ahead token (i :: rest) stage entry ↔ stage.Fits Mood.Calm entry := by
  unfold Instruction.phase? at leaving
  split at leaving <;> first | exact Iff.rfl | cases leaving

/-- Without a connection the mood does not matter. -/
theorem Stage.fits_none_iff : stage.Fits ok none ↔ stage = .unknown ∨ stage = .gone := by
  cases stage <;> simp [Fits]

private theorem Stage.fits_some_iff {selectable : Nat} :
    stage.Fits ok (some selectable) ↔ ∃ mood, stage = .live selectable mood ∧ ok mood := by
  cases stage <;> simp [Fits, eq_comm]

/-- When a round begins, whoever is calm is to be ticked. -/
theorem Stage.Fits.nextRound (calm : stage.Fits Mood.Calm entry) :
    ∃ stage', stage.nextRound = some stage' ∧ stage'.Fits (· = .due) entry := by
  cases entry with
  | none => rcases Stage.fits_none_iff.mp calm with rfl | rfl <;> exact ⟨_, rfl, trivial⟩
  | some selectable => obtain ⟨mood, rfl, rfl | rfl⟩ := Stage.fits_some_iff.mp calm <;> exact ⟨_, rfl, rfl, rfl⟩

private theorem ahead_cons_iff_of_foreign (foreign : i.Foreign token) :
    Ahead token (i :: rest) stage entry ↔ Ahead token rest stage entry := by
  cases i with
  | call selectable other callback => simp only [Ahead, if_neg foreign]
  | apply other fate => simp only [Ahead, if_neg foreign]
  | _ => first | exact Iff.rfl | cases foreign

private theorem ahead_append_iff_of_foreign (foreign : ∀ i ∈ more, i.Foreign token) :
    Ahead token (more ++ rest) stage entry ↔ Ahead token rest stage entry := by
  induction more with
  | nil => exact Iff.rfl
  | cons i more ih =>
    obtain ⟨first, others⟩ := List.forall_mem_cons.mp foreign
    exact (ahead_cons_iff_of_foreign first).trans (ih others)

private theorem Instruction.foreign_of_idle (idle : i.idle = true) : i.Foreign token := by
  cases i <;> first | exact idle | cases idle

/-- Whoever is not live is not in the table. -/
theorem Ahead.absent (dead : ∀ selectable mood, stage ≠ .live selectable mood) :
    ∀ {rest : List Instruction} {entry : Option Nat}, Ahead token rest stage entry → entry = none := by
  have fits : ∀ {ok : Mood → Prop} {entry : Option Nat}, stage.Fits ok entry → entry = none := by
    intro ok entry fits
    cases entry with
    | none => rfl
    | some selectable =>
      obtain ⟨mood, isLive, -⟩ := Stage.fits_some_iff.mp fits
      exact absurd isLive (dead _ _)
  intro rest
  induction rest with
  | nil => exact fits
  | cons i rest ih =>
    intro entry ahead
    cases i with
    | dispatch report => exact ih ahead.2
    | call selectable other callback =>
      simp only [Ahead] at ahead
      split at ahead
      · obtain ⟨stage', heard, -⟩ := ahead
        cases stage with
        | live selectable mood => exact absurd rfl (dead _ _)
        | _ => cases heard
      · exact ih ahead
    | enroll selectable other =>
      simp only [Ahead] at ahead
      split at ahead
      · exact ahead.2
      · exact ih ahead
    | insert other connection =>
      simp only [Ahead] at ahead
      split at ahead
      · exact ahead.1
      · exact ih ahead
    | apply other fate =>
      simp only [Ahead] at ahead
      split at ahead
      · exact fits ahead.1
      · exact ih ahead
    | _ => first | exact ih ahead | exact fits ahead

end Ahead

/-! ## One step -/

/-- Whose the connection under the token is, if it is in the table. -/
def entryOf (token : Nat) (live : Live) : Option Nat := (live.find? token).map Connection.selectable

section Tables

variable {token : Nat} {stage : Stage} {live : Live} {order : List Nat}

private theorem entryOf_append {other : Nat} {connection : Connection} :
    entryOf token (live ++ [(other, connection)]) =
      (entryOf token live).or (if other = token then some connection.selectable else none) := by
  rw [entryOf, entryOf, Live.find?, Live.find?, List.lookup_append, Option.map_or, List.lookup_cons, List.lookup_nil]
  by_cases same : other = token
  · rw [same, beq_self_eq_true, if_pos rfl]
    rfl
  · rw [beq_eq_false_iff_ne.mpr (Ne.symm same), if_neg same]
    rfl

/-- Whoever is due may be told of all the reports there are. -/
theorem ahead_dispatches {entry : Option Nat} (reports : List Readiness) (due : stage.Fits (· = .due) entry) :
    Ahead token (reports.map .dispatch ++ [.tickAll]) stage entry := by
  induction reports with
  | nil => exact due
  | cons report reports ih => exact ⟨fun _ => due, ih⟩

/-- Every live connection is ticked, and only once. -/
theorem ahead_ticks (distinct : (live.map Prod.fst).Nodup) (fits : stage.Fits (· = .due) (entryOf token live)) :
    Ahead token (ticks order live ++ [.attach]) stage (entryOf token live) := by
  cases known : live.find? token with
  | none =>
    have foreign : ∀ i ∈ ticks order live, i.Foreign token := by
      intro i member
      obtain ⟨other, connection, found, rfl⟩ := mem_ticks member
      rintro rfl
      cases known.symm.trans found
    rw [entryOf, known] at fits ⊢
    exact (ahead_append_iff_of_foreign foreign).mpr (Stage.fits_none_iff.mpr (Stage.fits_none_iff.mp fits))
  | some connection =>
    have here : token ∈ arranged order (live.map Prod.fst) := by
      rw [mem_arranged]
      by_contra unknown
      cases known.symm.trans (Live.find?_eq_none_iff.mpr unknown)
    obtain ⟨early, late, parts, others⟩ := filterMap_split (nodup_arranged distinct) here
      (f := fun token => (live.find? token).map fun connection => .call connection.selectable token .tick) (by rw [known]; rfl)
    have foreign : ∀ i ∈ early ++ late, i.Foreign token := by
      intro i member
      obtain ⟨other, apart, found⟩ := others i member
      obtain ⟨connection, -, rfl⟩ := Option.map_eq_some_iff.mp found
      exact apart
    rw [entryOf, known] at fits ⊢
    obtain ⟨mood, rfl, rfl⟩ := Stage.fits_some_iff.mp fits
    rw [ticks, parts, List.append_assoc]
    refine (ahead_append_iff_of_foreign fun i member => foreign i (List.mem_append_left _ member)).mpr ?_
    have heard : Stage.hear (.live connection.selectable .due) (.called connection.selectable token .tick) =
        some (.live connection.selectable .settled) := by simp [Stage.hear, Mood.hear]
    have rest : Ahead token (late ++ [.attach]) (.live connection.selectable .settled) (some connection.selectable) :=
      (ahead_append_iff_of_foreign fun i member => foreign i (List.mem_append_right _ member)).mpr ⟨rfl, rfl⟩
    simp only [List.cons_append, Ahead, if_true]
    exact ⟨_, heard, rest⟩

/-- No connection undergoes more than one change. -/
theorem ahead_applications {fates : Fates} {entry : Option Nat} (distinct : (fates.map Prod.fst).Nodup)
    (fits : stage.Fits (· = .settled) entry) : Ahead token (applications order fates ++ [.publish]) stage entry := by
  have calm : stage.Fits Mood.Calm entry := fits.imp fun _ => .inl
  cases known : fates.lookup token with
  | none =>
    refine (ahead_append_iff_of_foreign fun i member => ?_).mpr calm
    obtain ⟨other, -, found⟩ := List.mem_filterMap.mp member
    obtain ⟨fate, there, rfl⟩ := Option.map_eq_some_iff.mp found
    rintro rfl
    cases known.symm.trans there
  | some fate =>
    have here : token ∈ arranged order (fates.map Prod.fst) := by
      obtain ⟨before, after, rfl, -⟩ := List.lookup_eq_some_iff.mp known
      rw [mem_arranged]
      simp
    obtain ⟨early, late, parts, others⟩ := filterMap_split (nodup_arranged distinct) here
      (f := fun token => (fates.lookup token).map fun fate => .apply token fate) (by rw [known]; rfl)
    have foreign : ∀ i ∈ early ++ late, i.Foreign token := by
      intro i member
      obtain ⟨other, apart, found⟩ := others i member
      obtain ⟨fate, -, rfl⟩ := Option.map_eq_some_iff.mp found
      exact apart
    rw [applications, parts, List.append_assoc]
    refine (ahead_append_iff_of_foreign fun i member => foreign i (List.mem_append_left _ member)).mpr ?_
    simp only [List.cons_append, Ahead, if_true]
    refine ⟨fits, fun stage' entry' calm => ?_⟩
    exact (ahead_append_iff_of_foreign fun i member => foreign i (List.mem_append_right _ member)).mpr calm

end Tables

section Stint

variable {token : Nat} {stage : Stage} {world : World} {b b' : Bench} {instruction : Instruction} {rest todo : List Instruction}
  {events : List Event}

private theorem moments_of_quiet (quiet : instruction ≠ .announce) : moments instruction events = events.map .seen := by
  simp [moments, quiet]

private theorem leads_of_quiet {entry : Option Nat} (quiet : instruction ≠ .announce) (ahead : Ahead token todo stage entry) :
    Leads token stage (moments instruction []) todo entry := by
  rw [moments_of_quiet quiet]
  exact ⟨stage, rfl, ahead⟩

private theorem leads_of_seen {stage' : Stage} {event : Event} {entry : Option Nat} (quiet : instruction ≠ .announce)
    (moved : Stage.next token stage (.seen event) = some stage') (ahead : Ahead token todo stage' entry) :
    Leads token stage (moments instruction [event]) todo entry := by
  rw [moments_of_quiet quiet]
  exact ⟨stage', Option.bind_eq_some_iff.mpr ⟨stage', moved, rfl⟩, ahead⟩

/-- Whatever the fate of a connection, it is told of nothing but a new interest. -/
theorem ahead_fate {descriptor : Option Nat} {other : Nat} {fate : Fate} {result : Applied} {live live' : Live}
    {poller poller' : Poller} (applied : applyFate descriptor other fate live poller = (result, live', poller'))
    (ahead : Ahead token (.apply other fate :: rest) stage (entryOf token live)) :
    ∃ stage', Stage.next token stage (.seen (.applied other result)) = some stage' ∧
      Ahead token (news live other result ++ rest) stage' (entryOf token live') := by
  by_cases same : other = token
  · subst same
    simp only [Ahead, if_true] at ahead
    obtain ⟨fits, calm⟩ := ahead
    simp only [Stage.next, Event.token, if_true]
    rcases applyFate_cases applied with ⟨unknown, rfl, rfl⟩ | ⟨connection, known, ⟨interest, rfl, rfl⟩ | ⟨ended, rfl⟩⟩
    · rw [entryOf, unknown] at fits
      have absent := Stage.fits_none_iff.mp fits
      refine ⟨stage, ?_, ?_⟩
      · rcases absent with rfl | rfl <;> rfl
      · rw [entryOf, unknown]
        exact calm _ _ (Stage.fits_none_iff.mpr absent)
    · rw [entryOf, known] at fits
      obtain ⟨mood, rfl, rfl⟩ := Stage.fits_some_iff.mp fits
      refine ⟨_, rfl, ?_⟩
      have entry : entryOf other (live.setInterest other interest) = some connection.selectable := by
        rw [entryOf, Live.find?_setInterest, if_pos rfl, known]
        rfl
      have told : news live other (.changed interest) = [.call connection.selectable other (.interestApplied interest)] := by
        simp [news, known]
      rw [entry, told]
      simp only [List.singleton_append, Ahead, if_true]
      exact ⟨.live connection.selectable .changed, by simp [Stage.hear, Mood.hear], calm _ _ ⟨rfl, .inr rfl⟩⟩
    · rw [entryOf, known] at fits
      obtain ⟨mood, rfl, rfl⟩ := Stage.fits_some_iff.mp fits
      have entry : entryOf other (live.remove other) = none := by
        rw [entryOf, Live.find?_remove, if_pos rfl]
        rfl
      refine ⟨.gone, ?_, ?_⟩
      · rcases ended with rfl | rfl <;> rfl
      · rw [entry]
        have silent : news live other result = [] := by
          rcases ended with rfl | rfl <;> rfl
        rw [silent]
        exact calm _ _ trivial
  · refine ⟨stage, if_neg same, ?_⟩
    have entry : entryOf token live' = entryOf token live := by
      rw [entryOf, find?_applyFate_of_ne (Ne.symm same) applied, entryOf]
    simp only [Ahead, if_neg same] at ahead
    rw [entry]
    refine (ahead_append_iff_of_foreign fun i member => ?_).mpr ahead
    obtain ⟨selectable, interest, rfl⟩ := mem_news member
    exact same

/-- Each stint leads every connection to its next stage. -/
theorem Stint.lives (stint : Stint world b instruction rest events b' todo) (answered : answers world instruction = true)
    (serving : Serving b (instruction :: rest)) (undrawn : b.nextToken ≤ token → stage = .unknown)
    (ahead : Ahead token (instruction :: rest) stage (entryOf token b.live)) :
    Leads token stage (moments instruction events) todo (entryOf token b'.live) := by
  cases stint with
  | aside todo idle outward =>
    refine leads_of_quiet ?_ ((ahead_append_iff_of_foreign fun i member => ?_).mpr ?_)
    · rintro rfl
      cases idle
    · exact Instruction.foreign_of_idle (Instruction.idle_of_outward (outward i member))
    · exact (ahead_cons_iff_of_foreign (Instruction.foreign_of_idle idle)).mp ahead
  | begin =>
    obtain ⟨stage', begun, due⟩ := Stage.Fits.nextRound ahead
    exact ⟨stage', Option.bind_eq_some_iff.mpr ⟨stage', begun, rfl⟩, due⟩
  | look here next =>
    have due : stage.Fits (· = .due) (entryOf token b.live) := by rcases here with rfl | rfl <;> exact ahead
    refine leads_of_quiet (by rcases here with rfl | rfl <;> simp) ?_
    rcases next with rfl | ⟨waits, rfl⟩ <;> exact due
  | poll reports => exact leads_of_quiet (by simp) (ahead_dispatches reports ahead)
  | @dispatch report _ connection known =>
    refine leads_of_quiet (by simp) ?_
    obtain ⟨due, next⟩ := ahead
    by_cases same : report.token = token
    · have fits := due same
      have entry : entryOf token b.live = some connection.selectable := by rw [entryOf, ← same, known]; rfl
      rw [entry] at fits next ⊢
      obtain ⟨mood, rfl, rfl⟩ := Stage.fits_some_iff.mp fits
      simp only [Ahead, if_pos same]
      exact ⟨_, by simp [Stage.hear, Mood.hear], next⟩
    · simp only [Ahead, if_neg same]
      exact next
  | overlook => exact leads_of_quiet (by simp) ahead.2
  | tickAll => exact leads_of_quiet (by simp) (ahead_ticks (List.nodup_append.mp serving.distinct).1 ahead)
  | @call selectable other callback _ todo idle =>
    have behind : ∀ {stage' : Stage}, Ahead token rest stage' (entryOf token b.live) →
        Ahead token (todo ++ rest) stage' (entryOf token b.live) := fun next =>
      (ahead_append_iff_of_foreign fun i member => Instruction.foreign_of_idle (idle i member)).mpr next
    by_cases same : other = token
    · simp only [Ahead, if_pos same] at ahead
      obtain ⟨stage', heard, next⟩ := ahead
      exact leads_of_seen (by simp) ((if_pos same).trans heard) (behind next)
    · simp only [Ahead, if_neg same] at ahead
      exact leads_of_seen (by simp) (if_neg same) (behind ahead)
  | attach selectable =>
    refine leads_of_quiet (by simp) ?_
    by_cases same : b.nextToken = token
    · simp only [Ahead, if_pos same]
      have unknown := undrawn (Nat.le_of_eq same)
      exact ⟨unknown, ahead.absent (by simp [unknown])⟩
    · simp only [Ahead, if_neg same]
      exact ahead
  | attached => exact leads_of_quiet (by simp) ahead
  | @accept selectable other interest poller =>
    by_cases same : other = token
    · simp only [Ahead, if_pos same] at ahead
      obtain ⟨rfl, entry⟩ := ahead
      refine leads_of_seen (by simp) ((if_pos same).trans rfl) ?_
      simp only [Ahead, if_pos same, entry]
      exact ⟨.live selectable .settled, by simp [Stage.hear, Mood.hear], trivial, rfl, rfl⟩
    · simp only [Ahead, if_neg same] at ahead
      refine leads_of_seen (by simp) (if_neg same) ?_
      simp only [Ahead, if_neg same]
      exact ahead
  | @refuse selectable other =>
    by_cases same : other = token
    · simp only [Ahead, if_pos same] at ahead
      obtain ⟨rfl, entry⟩ := ahead
      refine leads_of_seen (by simp) ((if_pos same).trans rfl) ?_
      rw [entry]
      trivial
    · simp only [Ahead, if_neg same] at ahead
      exact leads_of_seen (by simp) (if_neg same) ahead
  | breakDown silent =>
    rw [answers, silent] at answered
    cases answered
  | @insert other connection _ =>
    refine leads_of_quiet (by simp) ?_
    rw [entryOf_append]
    by_cases same : other = token
    · simp only [Ahead, if_pos same] at ahead
      obtain ⟨entry, next⟩ := ahead
      rw [entry, if_pos same]
      exact next
    · simp only [Ahead, if_neg same] at ahead
      rw [if_neg same, Option.or_none]
      exact ahead
  | drain next => rcases next with rfl | rfl <;> exact leads_of_quiet (by simp) ahead
  | applyAll fates distinct => exact leads_of_quiet (by simp) (ahead_applications distinct ahead)
  | apply applied =>
    obtain ⟨stage', moved, next⟩ := ahead_fate applied ahead
    exact leads_of_seen (by simp) moved next
  | publish | leave | retire => exact leads_of_quiet (by simp) ahead
  | again here => rcases here with rfl | rfl <;> exact leads_of_quiet (by simp) ahead
  | depart here next =>
    refine leads_of_quiet ?_ ((ahead_of_leaving next).mpr ((ahead_of_leaving here).mp ahead))
    rintro rfl
    cases here

/-- Tokens are given to newcomers. -/
theorem Stint.given (stint : Stint world b instruction rest events b' todo)
    (given : token ∈ (moments instruction events).filterMap Moment.given?) : token ∈ held b (instruction :: rest) := by
  have silent : (if instruction = .announce then [Moment.round] else []).filterMap Moment.given? = [] := by
    split <;> rfl
  rw [moments, List.filterMap_append, silent, List.nil_append, List.filterMap_map] at given
  obtain ⟨event, member, isGiven⟩ := List.mem_filterMap.mp given
  cases stint with
  | accept | refuse =>
    rw [List.mem_singleton.mp member] at isGiven
    cases isGiven
    exact List.mem_append_right _ (List.mem_cons_self ..)
  | call | apply =>
    rw [List.mem_singleton.mp member] at isGiven
    cases isGiven
  | _ => cases member

end Stint

/-! ## Runs -/

/-- A trace has led the connection under the token to a stage from which the worker leads it on. -/
def Lived (token : Nat) (b : Bench) (todo : List Instruction) (trace : List Moment) : Prop :=
  ∃ stage, life token trace = some stage ∧ (b.nextToken ≤ token → stage = .unknown) ∧ Ahead token todo stage (entryOf token b.live)

private theorem Lived.proceeds {token : Nat} {world : World} {b b' : Bench} {instruction : Instruction}
    {todo todo' : List Instruction}
    {events : List Event} {trace : List Moment} (lived : Lived token b todo trace) (serving : Serving b todo)
    (answered : answers world instruction = true) (proceeds : Proceeds world instruction events b todo b' todo') :
    Lived token b' todo' (trace ++ moments instruction events) := by
  obtain ⟨stage, past, undrawn, ahead⟩ := lived
  cases proceeds with
  | aside quiet silent =>
    rw [silent, moments_of_quiet quiet, List.map_nil, List.append_nil]
    exact ⟨stage, past, undrawn, ahead⟩
  | enter quiet silent =>
    rw [silent, moments_of_quiet quiet, List.map_nil, List.append_nil]
    exact ⟨stage, past, undrawn, ahead⟩
  | work stint =>
    obtain ⟨stage', moved, next⟩ := stint.lives answered serving undrawn ahead
    refine ⟨stage', ?_, fun early => ?_, next⟩
    · rw [life, Stage.after_append]
      exact Option.bind_eq_some_iff.mpr ⟨stage, past, moved⟩
    · have older : b.nextToken ≤ token := by
        rcases stint.tokens with ⟨same, -⟩ | ⟨more, -⟩ <;> omega
      have none : ((moments instruction events).filterMap Moment.given?).count token = 0 := by
        refine List.count_eq_zero.mpr fun given => ?_
        have drawn := serving.below token (stint.given given)
        omega
      have known := Stage.given_after moved
      rw [none, undrawn older] at known
      cases stage' <;> first | rfl | cases known

section Run

variable {idleIterations : Nat} {calls : List (List Call)} {s : System State Own Instruction} {trace : List Moment}

theorem Lived.run (run : ((machine.restrict answers).observe moments).Run (callers idleIterations calls) s trace) :
    Tended True s ∧ Serving (benchOf s) (workerOf s).todo ∧ ∀ token, Lived token (benchOf s) (workerOf s).todo trace := by
  refine run.invariant ?_ ?_
  · rw [benchOf, workerOf_callers]
    exact ⟨.start _ _ _, .start, fun token => ⟨.unknown, rfl, fun _ => rfl, trivial⟩⟩
  · rintro before own instruction rest after effect world shared trace ⟨tended, serving, lived⟩ performed
    obtain ⟨unobserved, there, rfl⟩ := Option.map_eq_some_iff.mp performed
    obtain ⟨answered, performed⟩ := Machine.restrict_perform.mp there
    have proceeds := tended.proceeds answered performed
    exact ⟨tended.step (fun _ => answered) performed, serving.proceeds proceeds,
      fun token => (lived token).proceeds serving answered proceeds⟩

/-- No token is given twice. What is seen of any connection is a life. If it is live when a round begins, it is ticked once
before the next one begins. If it is not live, a report for it or a change that comes late is passed over. -/
theorem connection_lives (run : ((machine.restrict answers).observe moments).Run (callers idleIterations calls) s trace) :
    (trace.filterMap Moment.given?).Nodup ∧ ∀ token, ∃ stage, life token trace = some stage ∧
      (∀ earlier during later selectable mood, trace = earlier ++ .round :: (during ++ .round :: later) → .round ∉ during →
        life token earlier = some (.live selectable mood) → during.countP (Moment.ticks token) = 1) ∧
      ((∀ selectable mood, stage ≠ .live selectable mood) → ∀ worker ∈ s.threads, inLoop worker = true →
        ∀ world me shared rest,
          (∀ readable writable, perform world me shared worker.own (.dispatch ⟨token, readable, writable⟩) rest =
            goOn shared worker.own rest []) ∧
          ∀ fate, perform world me shared worker.own (.apply token fate) rest =
            goOn shared worker.own rest [] [.applied token .unknown]) := by
  obtain ⟨tended, -, lived⟩ := Lived.run run
  refine ⟨List.nodup_iff_count_le_one.mpr fun token => ?_, fun token => ?_⟩
  · obtain ⟨stage, past, -⟩ := lived token
    exact given_once past
  · obtain ⟨stage, past, -, ahead⟩ := lived token
    refine ⟨stage, past, ?_, fun dead worker member inside world me shared rest => ?_⟩
    · rintro earlier during later selectable mood rfl within before
      exact ticked_once within before past
    · have unknown : worker.own.live.find? token = none := by
        have absent := ahead.absent dead
        rw [benchOf, tended.elected.isWorker member inside] at absent
        exact Option.map_eq_none_iff.mp absent
      refine ⟨fun readable writable => ?_, fun fate => ?_⟩
      · simp only [perform, unknown]
      · simp only [perform, performApply, applyFate, unknown]

end Run

/-- A thread registers a connection and detaches it later on. -/
def oneRegistration : System State Own Instruction := callers 1 [[.register 7, .change (.deregister 1)]]

/-- The connection is attached in the first round, ticked in the second one, and ticked and detached in the third one. -/
def threeRounds : List (World × Nat) :=
  (List.replicate 5 0 ++ List.replicate 29 1 ++ List.replicate 2 0 ++ List.replicate 14 1).map ({}, ·)

/-- This is what is seen of it. -/
def shortLife : List Moment :=
  [.round, .seen (.attached 7 1), .seen (.called 7 1 .registered), .round, .seen (.called 7 1 .tick), .round,
    .seen (.called 7 1 .tick), .seen (.applied 1 .detached)]

/-- A report that comes afterwards is passed over. -/
theorem life_of_detached : ∃ s, ((machine.restrict answers).observe moments).Run oneRegistration s shortLife ∧
    life 1 shortLife = some .gone ∧ [Moment.seen (.called 7 1 .tick)].countP (Moment.ticks 1) = 1 ∧
    ∃ worker ∈ s.threads, inLoop worker = true ∧
      perform {} 1 s.shared worker.own (.dispatch ⟨1, true, true⟩) [] = goOn s.shared worker.own [] [] := by
  have ends : (((machine.restrict answers).observe moments).follow threeRounds (oneRegistration, [])).map
      (fun past => (past.1.threads.map Thread.todo, past.2)) = some ([[], [.decide]], shortLife) := by decide
  obtain ⟨⟨s, seen⟩, followed, same⟩ := Option.map_eq_some_iff.mp ends
  obtain ⟨todos, rfl⟩ : s.threads.map Thread.todo = [[], [.decide]] ∧ seen = shortLife := Prod.mk.inj same
  have run := Machine.run_of_follow .start followed
  have there : [.decide] ∈ s.threads.map Thread.todo := todos ▸ by simp
  obtain ⟨worker, member, isTodo⟩ := List.mem_map.mp there
  have inside : inLoop worker = true := by
    rw [inLoop, isTodo]
    rfl
  obtain ⟨stage, lived, ticked, late⟩ := (connection_lives run).2 1
  have gone : life 1 shortLife = some .gone := by decide
  cases lived.symm.trans gone
  have once := ticked (shortLife.take 3) [.seen (.called 7 1 .tick)] (shortLife.drop 6) 7 .settled rfl (by decide) (by decide)
  exact ⟨s, run, gone, once, worker, member, inside, (late (by simp) worker member inside {} 1 s.shared []).1 true true⟩

end PeerSubstrate.Reactor
