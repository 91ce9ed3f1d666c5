import Mathlib.Data.List.Nodup
import PeerSubstrate.Reactor.Worker

/-!
# Tables

What the tables of a worker hold: connections and fates, each under its token.
-/

namespace PeerSubstrate.Reactor

namespace Fates

variable {token : Nat} {fate : Fate} {fates : Fates}

private theorem mem_keys_set {t : Nat} : t ∈ (fates.set token fate).map Prod.fst ↔ t = token ∨ t ∈ fates.map Prod.fst := by
  induction fates with
  | nil => simp [set]
  | cons entry fates ih =>
    obtain ⟨t', f⟩ := entry
    unfold set
    split
    · next same => simp [same]
    · simp only [List.map_cons, List.mem_cons, ih]
      exact or_left_comm

private theorem nodup_set (distinct : (fates.map Prod.fst).Nodup) : ((fates.set token fate).map Prod.fst).Nodup := by
  induction fates with
  | nil => simp [set]
  | cons entry fates ih =>
    obtain ⟨t', f⟩ := entry
    obtain ⟨new, others⟩ := List.nodup_cons.mp distinct
    unfold set
    split
    · exact distinct
    · next other =>
      refine List.nodup_cons.mpr ⟨fun member => ?_, ih others⟩
      rcases mem_keys_set.mp member with same | old
      · exact other same
      · exact new old

theorem nodup_add (change : Change) (distinct : (fates.map Prod.fst).Nodup) : ((fates.add change).map Prod.fst).Nodup := by
  cases change with
  | deregister token => exact nodup_set distinct
  | interest token interest =>
    simp only [add]
    split
    · exact distinct
    · exact nodup_set distinct

end Fates

namespace Live

variable {token : Nat} {connection : Connection} {live : Live}

theorem find?_eq_none_iff : live.find? token = none ↔ token ∉ live.map Prod.fst := by
  rw [find?, List.lookup_eq_none_iff]
  constructor
  · intro apart member
    obtain ⟨entry, here, rfl⟩ := List.mem_map.mp member
    simpa using apart entry here
  · intro unknown entry here
    exact bne_iff_ne.mpr fun same => unknown (List.mem_map.mpr ⟨entry, here, same.symm⟩)

/-- A connection among all others. -/
theorem split (known : live.find? token = some connection) (distinct : (live.map Prod.fst).Nodup) :
    ∃ before after, live = before ++ (token, connection) :: after ∧ ∀ entry ∈ before ++ after, entry.1 ≠ token := by
  obtain ⟨before, after, rfl, -⟩ := List.lookup_eq_some_iff.mp known
  rw [List.map_append, List.map_cons, List.nodup_middle, ← List.map_append] at distinct
  refine ⟨before, after, rfl, fun entry member same => ?_⟩
  exact (List.nodup_cons.mp distinct).1 (List.mem_map.mpr ⟨entry, member, same⟩)

section Split

variable {before after : Live} (others : ∀ entry ∈ before ++ after, entry.1 ≠ token)
include others

theorem remove_of_split : remove token (before ++ (token, connection) :: after) = before ++ after := by
  have kept : ∀ entry ∈ before ++ after, (entry.1 != token) = true := fun entry member => bne_iff_ne.mpr (others entry member)
  rw [remove, List.filter_append, List.filter_cons_of_neg (by simp), ← List.filter_append, List.filter_eq_self.mpr kept]

theorem setInterest_of_split (interest : Option Interest) : setInterest token interest (before ++ (token, connection) :: after) =
    before ++ (token, { connection with interest }) :: after := by
  have kept : ∀ part : Live, (∀ entry ∈ part, entry ∈ before ++ after) → setInterest token interest part = part := by
    intro part within
    refine (List.map_congr_left fun entry member => ?_).trans (List.map_id part)
    exact if_neg (others entry (within entry member))
  have there : setInterest token interest ((token, connection) :: after) =
      (token, { connection with interest }) :: setInterest token interest after := by
    simp [setInterest]
  have apart : setInterest token interest (before ++ (token, connection) :: after) =
      setInterest token interest before ++ setInterest token interest ((token, connection) :: after) := List.map_append ..
  rw [apart, there, kept before fun _ => List.mem_append_left _, kept after fun _ => List.mem_append_right _]

end Split

theorem find?_setInterest {other : Nat} (interest : Option Interest) : (live.setInterest token interest).find? other =
    if other = token then (live.find? other).map ({ · with interest }) else live.find? other := by
  induction live with
  | nil => simp [find?, setInterest]
  | cons entry live ih =>
    obtain ⟨t, c⟩ := entry
    have step : setInterest token interest ((t, c) :: live) =
        (if t = token then (t, { c with interest }) else (t, c)) :: setInterest token interest live := rfl
    simp only [find?] at ih ⊢
    rw [step]
    by_cases here : other = t
    · subst here
      by_cases same : other = token <;> simp [same]
    · have apart : (other == t) = false := beq_eq_false_iff_ne.mpr here
      split <;> simp only [List.lookup_cons, apart, ih]

theorem find?_remove {other : Nat} : (live.remove token).find? other = if other = token then none else live.find? other := by
  induction live with
  | nil => simp [find?, remove]
  | cons entry live ih =>
    obtain ⟨t, c⟩ := entry
    simp only [find?, remove] at ih ⊢
    by_cases same : t = token
    · subst same
      rw [List.filter_cons_of_neg (by simp), ih, List.lookup_cons]
      by_cases here : other = t
      · rw [if_pos here, if_pos here]
      · rw [if_neg here, if_neg here, beq_eq_false_iff_ne.mpr here]
    · rw [List.filter_cons_of_pos (by simp [same]), List.lookup_cons, List.lookup_cons, ih]
      by_cases here : other = t
      · subst here
        rw [beq_self_eq_true]
        exact (if_neg same).symm
      · rw [beq_eq_false_iff_ne.mpr here]

private theorem keys_setInterest (interest : Option Interest) :
    (live.setInterest token interest).map Prod.fst = live.map Prod.fst := by
  rw [setInterest, List.map_map]
  refine List.map_congr_left fun entry _ => ?_
  simp only [Function.comp_apply]
  split <;> rfl

end Live

section Apply

variable {descriptor : Option Nat} {token : Nat} {fate : Fate} {live live' : Live} {poller poller' : Poller} {result : Applied}

/-- What a fate does to the table. -/
theorem applyFate_cases (applied : applyFate descriptor token fate live poller = (result, live', poller')) :
    live.find? token = none ∧ result = .unknown ∧ live' = live ∨
      ∃ connection, live.find? token = some connection ∧
        ((∃ interest, result = .changed interest ∧ live' = live.setInterest token interest) ∨
          (result = .detached ∨ result = .dropped) ∧ live' = live.remove token) := by
  unfold applyFate at applied
  split at applied
  · next unknown =>
    cases applied
    exact .inl ⟨unknown, rfl, rfl⟩
  · next connection known =>
    refine .inr ⟨connection, known, ?_⟩
    cases fate with
    | detach =>
      cases applied
      exact .inr ⟨.inl rfl, rfl⟩
    | interest interest =>
      dsimp only at applied
      split at applied
      · cases applied
        exact .inl ⟨interest, rfl, rfl⟩
      · cases applied
        exact .inr ⟨.inr rfl, rfl⟩

/-- No fate brings a connection about. -/
theorem keys_applyFate (applied : applyFate descriptor token fate live poller = (result, live', poller')) :
    (live'.map Prod.fst).Sublist (live.map Prod.fst) := by
  rcases applyFate_cases applied with ⟨-, -, rfl⟩ | ⟨_, -, ⟨interest, -, rfl⟩ | ⟨-, rfl⟩⟩
  · exact List.Sublist.refl _
  · rw [Live.keys_setInterest]
  · exact List.filter_sublist.map _

/-- The fate of one connection leaves all others alone. -/
theorem find?_applyFate_of_ne {other : Nat} (apart : other ≠ token)
    (applied : applyFate descriptor token fate live poller = (result, live', poller')) : live'.find? other = live.find? other := by
  rcases applyFate_cases applied with ⟨-, -, rfl⟩ | ⟨_, -, ⟨interest, -, rfl⟩ | ⟨-, rfl⟩⟩
  · rfl
  · rw [Live.find?_setInterest, if_neg apart]
  · rw [Live.find?_remove, if_neg apart]

end Apply

private theorem nodup_eraseDups : ∀ tokens : List Nat, tokens.eraseDups.Nodup
  | [] => List.nodup_nil
  | token :: tokens => by
    rw [List.eraseDups_cons, List.nodup_cons, List.mem_eraseDups]
    exact ⟨by simp, nodup_eraseDups _⟩
termination_by tokens => tokens.length
decreasing_by exact Nat.lt_succ_of_le (List.length_filter_le ..)

section Arranged

variable {order tokens : List Nat} {token : Nat}

/-- Whatever the order, all of a table is gone through, -/
theorem mem_arranged : token ∈ arranged order tokens ↔ token ∈ tokens := by
  simp only [arranged, List.mem_append, List.mem_eraseDups, List.mem_filter, List.contains_iff_mem, Bool.not_eq_true',
    ← Bool.not_eq_true, List.contains_iff_mem]
  by_cases named : token ∈ order <;> simp [named]

/-- and nothing twice. -/
theorem nodup_arranged (distinct : tokens.Nodup) : (arranged order tokens).Nodup := by
  refine List.nodup_append.mpr ⟨nodup_eraseDups _, distinct.filter _, fun token early other late same => ?_⟩
  subst same
  have named := (List.mem_filter.mp (List.mem_eraseDups.mp early)).1
  simp [named] at late

/-- What is done for one token, among what is done for the others. -/
theorem filterMap_split {f : Nat → Option Instruction} {i : Instruction} (distinct : tokens.Nodup) (here : token ∈ tokens)
    (done : f token = some i) : ∃ early late, tokens.filterMap f = early ++ i :: late ∧
      ∀ j ∈ early ++ late, ∃ other, other ≠ token ∧ f other = some j := by
  obtain ⟨before, after, rfl⟩ := List.append_of_mem here
  rw [List.nodup_middle, List.nodup_cons] at distinct
  refine ⟨before.filterMap f, after.filterMap f, ?_, fun j member => ?_⟩
  · rw [List.filterMap_append, List.filterMap_cons_some done]
  · rw [← List.filterMap_append] at member
    obtain ⟨other, there, does⟩ := List.mem_filterMap.mp member
    exact ⟨other, fun same => distinct.1 (same ▸ there), does⟩

end Arranged

end PeerSubstrate.Reactor
