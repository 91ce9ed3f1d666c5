import Mathlib.Data.List.Nodup
import PeerSubstrate.Reactor.Worker

/-!
# The life of a connection

What an observer of the worker sees falls into rounds (`Moment`). What is seen of the connection under one token leads it from
stage to stage (`Stage`): it is attached, told so, and from the next round on ticked once in every round, before which it may be
told of its readiness and after which of a new interest; in the end it is detached or dropped, or it has been refused at once.
Anything else has no next stage, so to have a stage at the end is to have lived like this (`life`).
-/

namespace PeerSubstrate.Reactor

/-- What an observer sees who is told when the worker begins a round. -/
inductive Moment where
  | round
  | seen (event : Event)
  deriving DecidableEq

/-- What the observer notes when an instruction has been performed. -/
def moments (instruction : Instruction) (events : List Event) : List Moment :=
  (if instruction = .announce then [.round] else []) ++ events.map .seen

def Event.token : Event → Nat
  | .called _ token _ | .attached _ token | .refused _ token | .applied token _ => token

/-- What a live connection is to be told next: that it has been attached; nothing more in this round; of its new
interest; nothing more in this round, not even of another interest; or of the tick of this round, and before that of its
readiness. -/
inductive Mood where
  | entering
  | settled
  | changing (interest : Option Interest)
  | changed
  | due
  deriving DecidableEq

/-- How far the connection under a token has come. One that is gone was refused, detached or dropped. -/
inductive Stage where
  | unknown
  | live (selectable : Nat) (mood : Mood)
  | gone
  deriving DecidableEq

/-- The callback that a connection in this mood expects leads it to the next one. -/
def Mood.hear : Mood → Callback → Option Mood
  | .entering, .registered => some .settled
  | .due, .ready _ _ => some .due
  | .due, .tick => some .settled
  | .changing interest, .interestApplied other => if other = interest then some .changed else none
  | _, _ => none

namespace Stage

/-- A round begins: whoever is live has been ticked in the round before, if it was already live then, and is now to be ticked
again. -/
def nextRound : Stage → Option Stage
  | .live selectable .settled | .live selectable .changed => some (.live selectable .due)
  | .live _ _ => none
  | stage => some stage

/-- Something happens to the connection. -/
def hear : Stage → Event → Option Stage
  | .unknown, .attached selectable _ => some (.live selectable .entering)
  | .unknown, .refused _ _ => some .gone
  | .live selectable mood, .called other _ callback =>
    if other = selectable then (mood.hear callback).map (.live selectable) else none
  | .live selectable .settled, .applied _ (.changed interest) => some (.live selectable (.changing interest))
  | .live _ .settled, .applied _ .detached | .live _ .settled, .applied _ .dropped => some .gone
  | .unknown, .applied _ .unknown => some .unknown
  | .gone, .applied _ .unknown => some .gone
  | _, _ => none

/-- The next stage of the connection under the token. -/
def next (token : Nat) (stage : Stage) : Moment → Option Stage
  | .round => stage.nextRound
  | .seen event => if event.token = token then stage.hear event else some stage

def after (token : Nat) (stage : Stage) (trace : List Moment) : Option Stage := trace.foldlM (next token) stage

end Stage

/-- The stage to which a trace has led the connection under the token. -/
def life (token : Nat) (trace : List Moment) : Option Stage := Stage.after token .unknown trace

/-- The token that has been given to a connection. -/
def Moment.given? : Moment → Option Nat
  | .seen (.attached _ token) | .seen (.refused _ token) => some token
  | _ => none

/-- A tick of the connection under the token. -/
def Moment.ticks (token : Nat) : Moment → Bool
  | .seen (.called _ other .tick) => other = token
  | _ => false

section Life

variable {token : Nat} {stage stage' : Stage} {moment : Moment} {trace earlier during later : List Moment}

namespace Stage

private theorem after_cons : after token stage (moment :: trace) = (next token stage moment).bind (after token · trace) := rfl

theorem after_append : after token stage (earlier ++ later) = (after token stage earlier).bind (after token · later) :=
  List.foldlM_append ..

/-- The token has been given. -/
def known : Stage → Bool
  | .unknown => false
  | _ => true

/-- A tick is due. -/
def isDue : Stage → Bool
  | .live _ .due => true
  | _ => false

/-- A token is given as long as it is unknown. -/
theorem given_next (moved : next token stage moment = some stage') :
    moment.given?.toList.count token + stage.known.toNat = stage'.known.toNat := by
  cases moment with
  | round =>
    simp only [next, nextRound] at moved
    split at moved <;> cases moved <;> simp [Moment.given?, known]
  | seen event =>
    simp only [next] at moved
    split at moved
    · next same =>
      subst same
      unfold hear at moved
      split at moved
      case h_3 =>
        split at moved
        · obtain ⟨mood, -, rfl⟩ := Option.map_eq_some_iff.mp moved
          rfl
        · cases moved
      all_goals cases moved <;> simp [Moment.given?, known, Event.token]
    · next other =>
      cases moved
      have none : (Moment.seen event).given?.toList.count token = 0 := by
        cases event <;> simp_all [Moment.given?, Event.token]
      rw [none, Nat.zero_add]

/-- Within a round a tick is due until it comes. -/
theorem ticks_next (within : moment ≠ .round) (moved : next token stage moment = some stage') :
    (moment.ticks token).toNat + stage'.isDue.toNat = stage.isDue.toNat := by
  cases moment with
  | round => exact absurd rfl within
  | seen event =>
    simp only [next] at moved
    split at moved
    · next same =>
      subst same
      unfold hear at moved
      split at moved
      case h_3 =>
        split at moved
        · obtain ⟨mood, heard, rfl⟩ := Option.map_eq_some_iff.mp moved
          unfold Mood.hear at heard
          split at heard
          case h_4 =>
            split at heard <;> cases heard
            rfl
          all_goals cases heard <;> simp [Moment.ticks, isDue, Event.token]
        · cases moved
      all_goals cases moved <;> rfl
    · next other =>
      cases moved
      have none : (Moment.seen event).ticks token = false := by
        unfold Moment.ticks
        split
        · next same =>
          cases same
          exact decide_eq_false other
        · rfl
      rw [none]
      exact Nat.zero_add _

theorem given_after : ∀ {trace : List Moment} {stage : Stage}, after token stage trace = some stage' →
    (trace.filterMap Moment.given?).count token + stage.known.toNat = stage'.known.toNat := by
  intro trace
  induction trace with
  | nil =>
    intro stage moved
    cases moved
    exact Nat.zero_add _
  | cons moment trace ih =>
    intro stage moved
    obtain ⟨middle, first, others⟩ := Option.bind_eq_some_iff.mp moved
    have head := given_next first
    have tail := ih others
    have parts : ((moment :: trace).filterMap Moment.given?).count token =
        moment.given?.toList.count token + (trace.filterMap Moment.given?).count token := by
      cases isGiven : moment.given? with
      | none => simp [List.filterMap_cons_none isGiven]
      | some other => rw [List.filterMap_cons_some isGiven, Option.toList_some, ← List.count_append]; rfl
    omega

private theorem ticks_after : ∀ {trace : List Moment} {stage : Stage}, .round ∉ trace → after token stage trace = some stage' →
    trace.countP (Moment.ticks token) + stage'.isDue.toNat = stage.isDue.toNat := by
  intro trace
  induction trace with
  | nil =>
    intro stage _ moved
    cases moved
    exact Nat.zero_add _
  | cons moment trace ih =>
    intro stage within moved
    obtain ⟨middle, first, others⟩ := Option.bind_eq_some_iff.mp moved
    have head := ticks_next (List.ne_of_not_mem_cons within).symm first
    have tail := ih (List.not_mem_of_not_mem_cons within) others
    have parts : (moment :: trace).countP (Moment.ticks token) =
        trace.countP (Moment.ticks token) + (moment.ticks token).toNat := by
      rw [List.countP_cons]
      cases moment.ticks token <;> rfl
    omega

end Stage

/-- A token is given once at most. -/
theorem given_once (lived : life token trace = some stage) : (trace.filterMap Moment.given?).count token ≤ 1 := by
  have given := Stage.given_after lived
  have bound := Bool.toNat_le stage.known
  omega

/-- A connection that is live when a round begins is ticked once before the next one begins. -/
theorem ticked_once {selectable : Nat} {mood : Mood} (within : .round ∉ during)
    (before : life token earlier = some (.live selectable mood))
    (lived : life token (earlier ++ .round :: (during ++ .round :: later)) = some stage) :
    during.countP (Moment.ticks token) = 1 := by
  rw [life, Stage.after_append] at lived
  obtain ⟨middle, isLive, lived⟩ := Option.bind_eq_some_iff.mp lived
  cases before.symm.trans isLive
  rw [Stage.after_cons] at lived
  obtain ⟨begun, first, lived⟩ := Option.bind_eq_some_iff.mp lived
  rw [Stage.after_append] at lived
  obtain ⟨ended, moved, lived⟩ := Option.bind_eq_some_iff.mp lived
  obtain ⟨following, second, -⟩ := Option.bind_eq_some_iff.mp lived
  have due : begun.isDue = true := by
    cases mood <;> cases first <;> rfl
  have done : ended.isDue = false := by
    cases ended with
    | live selectable mood => cases mood <;> first | rfl | cases second
    | _ => rfl
  have counted := Stage.ticks_after within moved
  rw [due, done] at counted
  exact counted

/-- A connection that has been attached may not be left out. -/
example : life 1 [.round, .seen (.attached 7 1), .seen (.called 7 1 .registered), .round, .round] = none := by decide

/-- What has been refused is told nothing. -/
example : life 1 [.round, .seen (.refused 7 1), .seen (.called 7 1 .registered)] = none := by decide

end Life

end PeerSubstrate.Reactor
