import PeerSubstrate.Proofs.Reactor.Rounds

/-!
# Tokens

A token is drawn for every registration and is never drawn again. So the connections of a worker and those it is about to take
in have tokens of their own, all of them drawn before (`Serving`).
-/

namespace PeerSubstrate.Reactor
open PeerSubstrate.Concurrency

namespace Instruction

/-- The token of a connection that is about to be taken in. -/
def newcomer? : Instruction → Option Nat
  | .enroll _ token | .insert token _ => some token
  | _ => none

theorem newcomer?_of_phase {i : Instruction} (elsewhere : i.phase? ≠ some .attaching) : i.newcomer? = none := by
  cases i <;> first | rfl | exact absurd rfl elsewhere

theorem newcomer?_of_idle {i : Instruction} (idle : i.idle = true) : i.newcomer? = none :=
  newcomer?_of_phase (by rw [phase?_of_idle idle]; simp)

end Instruction

/-- The tokens of connections that have been taken in or are about to be. -/
def held (b : Bench) (todo : List Instruction) : List Nat := b.live.map Prod.fst ++ todo.filterMap Instruction.newcomer?

/-- What holds of a worker at any point of its loop. -/
structure Serving (b : Bench) (todo : List Instruction) : Prop where
  inside : todo = [] ∨ (post? todo).any Post.inLoop = true
  inPhase : InPhase todo
  below : ∀ token ∈ held b todo, token < b.nextToken
  distinct : (held b todo).Nodup

section Stint

variable {world : World} {b b' : Bench} {instruction : Instruction} {rest todo : List Instruction} {events : List Event}

/-- Only registrations lead to newcomers. -/
theorem Stint.frame {α : Type} {f : Instruction → Option α} (stint : Stint world b instruction rest events b' todo)
    (free : ∀ {i}, i.newcomer? = none → f i = none) (apart : instruction ≠ .attach) (settled : instruction.newcomer? = none) :
    todo.filterMap f = rest.filterMap f := by
  have passed : ∀ {more : List Instruction}, (∀ i ∈ more, i.newcomer? = none) → (more ++ rest).filterMap f = rest.filterMap f := by
    intro more others
    rw [List.filterMap_append, List.filterMap_eq_nil_iff.mpr fun i member => free (others i member), List.nil_append]
  have quiet : ∀ {more : List Instruction}, (∀ i ∈ more, i.newcomer? = none) → more.filterMap f = [] :=
    fun others => List.filterMap_eq_nil_iff.mpr fun i member => free (others i member)
  have one : ∀ {i : Instruction}, i.newcomer? = none → [i].filterMap f = [] := fun alone => quiet (by simpa using alone)
  cases stint with
  | aside _ _ outward => exact passed fun i member => Instruction.newcomer?_of_idle (Instruction.idle_of_outward (outward i member))
  | call others => exact passed fun i member => Instruction.newcomer?_of_idle (others i member)
  | dispatch => exact @passed [_] (by simp [Instruction.newcomer?])
  | overlook => rfl
  | apply =>
    refine passed fun i member => ?_
    obtain ⟨selectable, interest, rfl⟩ := mem_news member
    rfl
  | poll reports =>
    refine quiet fun i member => ?_
    simp only [List.mem_cons, List.mem_append, List.mem_map, List.not_mem_nil, or_false] at member
    rcases member with rfl | ⟨report, -, rfl⟩ | rfl <;> rfl
  | tickAll =>
    refine quiet fun i member => ?_
    rcases List.mem_append.mp member with early | late
    · obtain ⟨token, connection, -, rfl⟩ := mem_ticks early
      rfl
    · rw [List.mem_singleton.mp late]
      rfl
  | applyAll fates =>
    refine quiet fun i member => ?_
    rcases List.mem_append.mp member with early | late
    · obtain ⟨token, fate, rfl⟩ := mem_applications early
      rfl
    · rw [List.mem_singleton.mp late]
      rfl
  | look _ next => rcases next with rfl | ⟨waits, rfl⟩ <;> exact one rfl
  | drain next => rcases next with rfl | rfl <;> exact one rfl
  | depart _ next => exact one (Instruction.newcomer?_of_phase (by rw [next]; simp))
  | begin | publish | again | leave => exact one rfl
  | retire => rfl
  | attach | attached => exact absurd rfl apart
  | accept | refuse | breakDown | insert => cases settled

/-- Tokens are given up, or the next one is drawn. -/
theorem Stint.tokens (stint : Stint world b instruction rest events b' todo) :
    b'.nextToken = b.nextToken ∧ (held b' todo).Sublist (held b (instruction :: rest)) ∨
      b'.nextToken = b.nextToken + 1 ∧ held b' todo = held b (instruction :: rest) ++ [b.nextToken] := by
  have framed := stint.frame (f := Instruction.newcomer?) id
  have stay : instruction ≠ .attach → instruction.newcomer? = none → (b'.live.map Prod.fst).Sublist (b.live.map Prod.fst) →
      (held b' todo).Sublist (held b (instruction :: rest)) := by
    intro apart settled kept
    rw [held, held, framed apart settled, List.filterMap_cons_none settled]
    exact kept.append (List.Sublist.refl _)
  cases stint with
  | attach =>
    refine .inr ⟨rfl, ?_⟩
    rw [held, held, List.append_assoc]
    rfl
  | insert =>
    refine .inl ⟨rfl, ?_⟩
    rw [held, held, List.map_append, List.append_assoc]
    exact List.Sublist.refl _
  | attached | accept => exact .inl ⟨rfl, List.Sublist.refl _⟩
  | refuse | breakDown => exact .inl ⟨rfl, (List.Sublist.refl _).append (List.nil_sublist _)⟩
  | apply applied => exact .inl ⟨rfl, stay (by simp) rfl (keys_applyFate applied)⟩
  | aside _ idle =>
    refine .inl ⟨rfl, stay ?_ (Instruction.newcomer?_of_idle idle) (List.Sublist.refl _)⟩
    rintro rfl
    cases idle
  | look here => rcases here with rfl | rfl <;> exact .inl ⟨rfl, stay (by simp) rfl (List.Sublist.refl _)⟩
  | again here => rcases here with rfl | rfl <;> exact .inl ⟨rfl, stay (by simp) rfl (List.Sublist.refl _)⟩
  | depart here =>
    refine .inl ⟨rfl, stay ?_ ?_ (List.Sublist.refl _)⟩
    · rintro rfl
      cases here
    · exact Instruction.newcomer?_of_phase (by rw [here]; simp)
  | _ => exact .inl ⟨rfl, stay (by simp) rfl (List.Sublist.refl _)⟩

private theorem Serving.work (serving : Serving b (instruction :: rest))
    (stint : Stint world b instruction rest events b' todo) :
    Serving b' todo where
  inside := by
    rcases stint.stays (serving.inside.resolve_left (List.cons_ne_nil _ _)) with stays | ⟨empty, -⟩
    · exact .inr stays
    · exact .inl empty
  inPhase := stint.inPhase serving.inPhase
  below token member := by
    rcases stint.tokens with ⟨next, fewer⟩ | ⟨next, more⟩
    · exact next ▸ serving.below token (fewer.subset member)
    · rw [more] at member
      rw [next]
      rcases List.mem_append.mp member with old | new
      · exact Nat.lt_succ_of_lt (serving.below token old)
      · rw [List.mem_singleton.mp new]
        exact Nat.lt_succ_self _
  distinct := by
    rcases stint.tokens with ⟨-, fewer⟩ | ⟨-, more⟩
    · exact serving.distinct.sublist fewer
    · rw [more]
      refine List.nodup_append.mpr ⟨serving.distinct, List.nodup_singleton _, fun token old next new => ?_⟩
      rw [List.mem_singleton.mp new]
      exact Nat.ne_of_lt (serving.below token old)

theorem Serving.proceeds (serving : Serving b rest) (proceeds : Proceeds world instruction events b rest b' todo) :
    Serving b' todo := by
  cases proceeds with
  | aside => exact serving
  | enter => exact { serving with inside := .inr rfl, inPhase := .single _ }
  | work stint => exact serving.work stint

theorem Serving.start : Serving ⟨[], [], 1, 0⟩ [] where
  inside := .inl rfl
  inPhase := .nil
  below token member := by cases member
  distinct := List.nodup_nil

end Stint

end PeerSubstrate.Reactor
