import PeerSubstrate.Proofs.Reactor.Rounds

/-!
# Desertion

A connection is asked what it wants to be watched for outside of any guard. If it panics, the worker ends in office, and
nobody can take its place (`Deserted`). Every run is one in which this has not happened, or it has led there
(`answered_or_deserted`).
-/

namespace PeerSubstrate.Reactor
open PeerSubstrate.Concurrency

/-- The slot is taken, but there is no worker, and none is going to be started. -/
structure Deserted (s : System State Own Instruction) : Prop where
  taken : s.shared.owner ≠ noWorker
  outward : ∀ thread ∈ s.threads, ∀ i ∈ thread.todo, i.outward = true ∧ i.starts? = none

section Step

variable {world : World} {shared : State} {own : Own} {instruction : Instruction} {rest : List Instruction}
  {before after : List (Thread Own Instruction)} {effect : Effect State Own Instruction Event}

/-- Nobody comes back, and nothing that is queued is taken up. -/
theorem Deserted.step (deserted : Deserted ⟨shared, before ++ ⟨own, instruction :: rest⟩ :: after⟩)
    (performed : perform world before.length shared own instruction rest = some effect) :
    Deserted ⟨effect.shared, before ++ effect.thread :: (after ++ effect.started)⟩ ∧ effect.events = [] ∧
      shared.registrations <+: effect.shared.registrations ∧ shared.changes <+: effect.shared.changes := by
  have here : ⟨own, instruction :: rest⟩ ∈ before ++ ⟨own, instruction :: rest⟩ :: after := by simp
  have mine := deserted.outward _ here
  have goes : ∀ {s' : State} {more : List Instruction}, goOn s' own rest more = some effect → s'.owner = shared.owner →
      (∀ i ∈ more, i.outward = true ∧ i.starts? = none) → shared.registrations <+: s'.registrations →
      shared.changes <+: s'.changes →
      Deserted ⟨effect.shared, before ++ effect.thread :: (after ++ effect.started)⟩ ∧ effect.events = [] ∧
        shared.registrations <+: effect.shared.registrations ∧ shared.changes <+: effect.shared.changes := by
    intro s' more goes owner outward registrations changes
    cases goes
    refine ⟨⟨fun free => deserted.taken (owner.symm.trans free), fun thread member i there => ?_⟩, rfl, registrations, changes⟩
    rcases mem_threads_iff.mp member with rfl | old | new
    · rcases List.mem_append.mp there with early | late
      · exact outward i early
      · exact mine i (List.mem_cons_of_mem _ late)
    · exact deserted.outward _ (mem_of_other old) i there
    · cases new
  obtain ⟨outward, starts⟩ := mine _ (List.mem_cons_self ..)
  cases instruction with
  | register selectable =>
    exact goes performed rfl (by simp [Instruction.outward, Instruction.starts?]) (List.prefix_append ..) (List.prefix_refl _)
  | request change =>
    exact goes performed rfl (by simp [Instruction.outward, Instruction.starts?]) (List.prefix_refl _) (List.prefix_append ..)
  | ensure =>
    exact goes performed rfl (by simp [Instruction.outward, Instruction.starts?]) (List.prefix_refl _) (List.prefix_refl _)
  | claim worker =>
    simp only [perform, if_neg deserted.taken] at performed
    exact goes performed rfl (by simp [Instruction.outward, Instruction.starts?]) (List.prefix_refl _) (List.prefix_refl _)
  | glance =>
    refine goes performed rfl ?_ (List.prefix_refl _) (List.prefix_refl _)
    split <;> simp [Instruction.outward, Instruction.starts?]
  | countStarted | wake => exact goes performed rfl (by simp) (List.prefix_refl _) (List.prefix_refl _)
  | spawn => cases starts
  | _ => cases outward

/-- The worker that a connection breaks down leaves the reactor deserted. -/
theorem Tended.deserts (tended : Tended False ⟨shared, before ++ ⟨own, instruction :: rest⟩ :: after⟩)
    (silent : answers world instruction = false) (performed : perform world before.length shared own instruction rest = some effect) :
    Deserted ⟨effect.shared, before ++ effect.thread :: (after ++ effect.started)⟩ := by
  have here : ⟨own, instruction :: rest⟩ ∈ before ++ ⟨own, instruction :: rest⟩ :: after := by simp
  have leads := (tended.elected.orderly _ here).1
  cases instruction with
  | enroll selectable token =>
    cases leads
    have refused : world.interest = none := Option.isNone_iff_eq_none.mp (Option.isSome_eq_false_iff.mp silent)
    simp only [perform, performEnroll, refused] at performed
    cases performed
    have alone : ∀ thread ∈ before ++ after, inLoop thread = false := fun thread => tended.elected.outside rfl
    have officer : office ⟨own, [.enroll selectable token, .attach]⟩ = [own.worker] := rfl
    -- Its own place is the only one in office.
    obtain ⟨taken, others⟩ : shared.owner ≠ noWorker ∧ ∀ thread ∈ before ++ after, office thread = [] := by
      rcases tended.elected.manned with ⟨none, -⟩ | ⟨one, taken⟩
      · cases officer.symm.trans (List.flatMap_eq_nil_iff.mp none _ here)
      · refine ⟨taken, fun thread member => ?_⟩
        have count := congrArg List.length one
        simp only [List.flatMap_append, List.flatMap_cons, officer, List.length_append, List.length_cons,
          List.length_nil] at count
        have empty : ((before ++ after).flatMap office) = [] := by
          rw [List.flatMap_append, ← List.length_eq_zero_iff, List.length_append]
          omega
        exact List.flatMap_eq_nil_iff.mp empty thread member
    refine ⟨taken, fun thread member i there => ?_⟩
    rcases mem_threads_iff.mp member with rfl | old | new
    · cases there
    · have unofficial : ∀ worker, worker ∉ office thread := by simp [others thread old]
      have apart : post? thread.todo = none := by
        cases isPost : post? thread.todo with
        | none => rfl
        | some post =>
          have outside := alone thread old
          rw [inLoop, isPost] at outside
          cases post with
          | outside => exact absurd (mem_office_iff.mpr (.inr ⟨rfl, by rw [isPost]; rfl⟩)) (unofficial thread.own.worker)
          | _ => cases outside
      refine ⟨(tended.stationed _ (mem_of_other old)).away apart i there, ?_⟩
      cases i with
      | spawn worker => exact absurd (mem_office_iff.mpr (.inl there)) (unofficial worker)
      | _ => rfl
    · cases new
  | _ => cases silent

end Step

section Run

variable {idleIterations : Nat} {calls : List (List Call)} {m : Machine State Own Instruction Event World}
  {s t : System State Own Instruction} {seen more : List Event}

/-- Once it is deserted, a reactor stays deserted, nothing is seen of it, and what is queued stays queued. -/
theorem Deserted.run (run : machine.Run s t seen) (deserted : Deserted s) :
    Deserted t ∧ seen = [] ∧ s.shared.registrations <+: t.shared.registrations ∧ s.shared.changes <+: t.shared.changes := by
  refine run.invariant ⟨deserted, rfl, List.prefix_refl _, List.prefix_refl _⟩ ?_
  rintro before own instruction rest after effect world shared seen ⟨deserted, rfl, registrations, changes⟩ performed
  obtain ⟨still, silent, more, others⟩ := deserted.step performed
  exact ⟨still, silent, registrations.trans more, changes.trans others⟩

/-- Unless the reactor is deserted, all connections that were attached have said what they want to be watched for. -/
theorem answered_or_deserted (means : ∀ {world me s own instruction rest effect},
      m.perform world me s own instruction rest = some effect → perform world me s own instruction rest = some effect)
    (run : m.Run (callers idleIterations calls) s seen) :
    (m.restrict answers).Run (callers idleIterations calls) s seen ∨ Deserted s := by
  have both : Tended False s ∧ ((m.restrict answers).Run (callers idleIterations calls) s seen ∨ Deserted s) := by
    refine run.invariant ⟨.start _ _ _, .inl .start⟩ ?_
    rintro before own instruction rest after effect world shared seen ⟨tended, happened⟩ performed
    refine ⟨tended.step False.elim (means performed), ?_⟩
    rcases happened with run | deserted
    · cases answered : answers world instruction with
      | false => exact .inr (tended.deserts answered (means performed))
      | true =>
        refine .inl (run.step world before.length (Machine.step_eq_some_iff.mpr ?_))
        exact ⟨before, own, instruction, rest, after, effect, rfl, rfl, Machine.restrict_perform.mpr ⟨answered, performed⟩, rfl, rfl⟩
    · exact .inr (deserted.step (means performed)).1
  exact both.2

end Run

end PeerSubstrate.Reactor
