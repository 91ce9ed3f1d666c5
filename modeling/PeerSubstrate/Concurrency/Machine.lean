/-!
# Threads over shared state

A thread is the list of instructions it still has to perform. One instruction is one atomic step: it
reads and changes the shared state, and puts the instructions that follow from it in front of those
the thread had before. Whatever a step depends on and the program does not decide, such as the time,
is told to it by the world. A run is any sequence of steps of any threads; which thread steps when is
nowhere restricted, so what holds in every run holds for every scheduler.
-/

namespace PeerSubstrate.Concurrency

/-- What only this thread sees, and its instructions, next one first. -/
structure Thread (τ ι : Type) where
  own : τ
  todo : List ι := []

/-- Threads and the state they share. A thread is named by its place in the list and keeps it for
good, also when it has nothing left to do. -/
structure System (σ τ ι : Type) where
  shared : σ
  threads : List (Thread τ ι)

/-- What one instruction leaves behind: the shared state, the thread that performed it, the threads it
started, and what an observer sees of it. -/
structure Effect (σ τ ι ε : Type) where
  shared : σ
  thread : Thread τ ι
  started : List (Thread τ ι) := []
  events : List ε := []

/-- The meaning of instructions. Without an effect the instruction cannot be performed now, and the
thread waits at it. -/
structure Machine (σ τ ι ε ω : Type) where
  perform (world : ω) (me : Nat) (shared : σ) (own : τ) (instruction : ι) (rest : List ι) :
    Option (Effect σ τ ι ε)

namespace Machine

variable {σ τ ι ε ω : Type}

/-- Thread `i` performs its next instruction. -/
def step (m : Machine σ τ ι ε ω) (world : ω) (i : Nat) (s : System σ τ ι) :
    Option (System σ τ ι × List ε) :=
  match s.threads[i]? with
  | some ⟨own, instruction :: rest⟩ =>
    (m.perform world i s.shared own instruction rest).map fun effect =>
      (⟨effect.shared, s.threads.set i effect.thread ++ effect.started⟩, effect.events)
  | _ => none

/-- A run from one system to another, whose steps an observer sees as `events`. -/
inductive Run (m : Machine σ τ ι ε ω) (s : System σ τ ι) : System σ τ ι → List ε → Prop
  | start : Run m s s []
  | step {t u : System σ τ ι} {seen events : List ε} (world : ω) (i : Nat) :
      Run m s t seen → m.step world i t = some (u, events) → Run m s u (seen ++ events)

end Machine

end PeerSubstrate.Concurrency
