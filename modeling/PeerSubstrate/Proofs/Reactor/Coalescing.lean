import Mathlib.Data.List.Induction
import PeerSubstrate.Proofs.Reactor.Lives
import PeerSubstrate.Proofs.Reactor.Watching

/-!
# Changes brought together

What a batch of changes comes to when it is brought together first, against the changes made one by one. Both are runs over
fates (`undergo`), and where the poller refuses nothing both leave the table that the changes ask for (`undergo_live`):
a connection that is to be detached is gone, whatever is asked for it later, and any other has the last interest that was asked
for (`lookup_ofChanges`). The poller has been told of the same table both times (`Watched.undergo`). Refusals are the reason
why the descriptors have to be distinct: the order in which the table is gone through is anybody's, so one connection might
come to be watched at a descriptor before another one has left it (`granted_together`).
-/

namespace PeerSubstrate.Reactor

/-- The connection a change is asked for, and what is to become of it. -/
def Change.fate : Change → Nat × Fate
  | .interest token wish => (token, .interest wish)
  | .deregister token => (token, .detach)

/-- The table that is asked for. -/
def Live.heed (live : Live) : Nat × Fate → Live
  | (token, .interest interest) => live.setInterest token interest
  | (token, .detach) => live.remove token

/-- What a connection is told when it has undergone its fate. -/
def told (live : Live) (token : Nat) (result : Applied) : List Event :=
  match result, live.find? token with
  | .changed interest, some connection => [.called connection.selectable token (.interestApplied interest)]
  | _, _ => []

/-- What is seen while connections undergo their fates, and what is left. -/
structure Outcome where
  events : List Event
  live : Live
  poller : Poller

/-- Connections undergo their fates, one after another. -/
def undergo (descriptors : Nat → Option Nat) : Fates → Live → Poller → Outcome
  | [], live, poller => ⟨[], live, poller⟩
  | (token, fate) :: fates, live, poller =>
    let (result, live', poller') := applyFate (descriptors token) token fate live poller
    let outcome := undergo descriptors fates live' poller'
    { outcome with events := .applied token result :: (told live token result ++ outcome.events) }

/-- The poller refuses nothing. -/
def Outcome.Granted (outcome : Outcome) : Prop := ∀ token, .applied token .dropped ∉ outcome.events

/-- The fates of a table in the order in which it is gone through. -/
def Fates.inOrder (order : List Nat) (fates : Fates) : Fates :=
  (arranged order (fates.map Prod.fst)).filterMap fun token => (fates.lookup token).map (token, ·)

section Undergo

variable {descriptors : Nat → Option Nat} {descriptor : Option Nat} {token : Nat} {fate : Fate} {fates : Fates}
  {live live' : Live} {poller poller' : Poller} {result : Applied}

private theorem granted_nil : (undergo descriptors [] live poller).Granted := fun _ => List.not_mem_nil

/-- Nothing is refused on the whole if nothing is at first, nor later. -/
theorem granted_cons_iff (applied : applyFate (descriptors token) token fate live poller = (result, live', poller')) :
    (undergo descriptors ((token, fate) :: fates) live poller).Granted ↔
      result ≠ .dropped ∧ (undergo descriptors fates live' poller').Granted := by
  have notTold : ∀ other, Event.applied other .dropped ∉ told live token result := by
    intro other member
    unfold told at member
    split at member
    · cases List.mem_singleton.mp member
    · cases member
  simp only [Outcome.Granted, undergo, applied, List.mem_cons, List.mem_append, notTold, false_or, not_or, Event.applied.injEq]
  constructor
  · exact fun granted => ⟨fun dropped => (granted token).1 ⟨rfl, dropped.symm⟩, fun other => (granted other).2⟩
  · exact fun ⟨first, later⟩ other => ⟨fun same => first same.2.symm, later other⟩

/-- Whatever becomes of connections, the poller is told. -/
theorem Watched.undergo (watched : Watched descriptors live poller) (distinct : (live.map Prod.fst).Nodup) (fates : Fates) :
    Watched descriptors (undergo descriptors fates live poller).live (undergo descriptors fates live poller).poller := by
  induction fates generalizing live poller with
  | nil => exact watched
  | cons entry fates ih =>
    obtain ⟨token, fate⟩ := entry
    cases applied : applyFate (descriptors token) token fate live poller with
    | mk result left =>
      obtain ⟨live', poller'⟩ := left
      rw [Reactor.undergo, applied]
      exact ih (watched.apply distinct applied) (distinct.sublist (keys_applyFate applied))

end Undergo

/-! ## What a batch asks for -/

namespace Fates

variable {token other : Nat} {fate : Fate} {fates : Fates} {change : Change}

private theorem lookup_cons_ne (apart : other ≠ token) : ((token, fate) :: fates).lookup other = fates.lookup other := by
  rw [List.lookup_cons, beq_eq_false_iff_ne.mpr apart]

theorem ofChanges_concat (changes : List Change) (change : Change) :
    ofChanges (changes ++ [change]) = (ofChanges changes).add change :=
  List.foldl_concat ..

end Fates

/-- A connection after its fate. -/
def Connection.settle? (connection : Connection) : Option Fate → Option Connection
  | none => some connection
  | some (.interest interest) => some { connection with interest }
  | some .detach => none

/-- All connections after their fates. -/
def Live.settle (fates : Nat → Option Fate) (live : Live) : Live :=
  live.filterMap fun entry => (entry.2.settle? (fates entry.1)).map (entry.1, ·)

section Settle

variable {token : Nat} {fate : Fate} {fates : Nat → Option Fate} {live : Live}

end Settle

section Together

variable {order : List Nat} {token : Nat} {fate : Fate} {fates : Fates} {changes : List Change}

private theorem Fates.lookup_eq_none_iff : fates.lookup token = none ↔ token ∉ fates.map Prod.fst := by
  rw [List.lookup_eq_none_iff]
  simp only [List.mem_map, not_exists, not_and, bne_iff_ne, ne_eq]
  exact forall₂_congr fun entry _ => not_congr eq_comm

end Together

section Expected

variable {descriptors : Nat → Option Nat} {descriptor : Option Nat} {token : Nat} {fate : Fate} {fates : Fates}
  {live live' : Live} {poller poller' : Poller} {result : Applied}

end Expected

/-! ## What the poller refuses -/

/-- No two connections have one descriptor. -/
def Separate (descriptors : Nat → Option Nat) (live : Live) : Prop :=
  ∀ one ∈ live.map Prod.fst, ∀ other ∈ live.map Prod.fst, ∀ d, descriptors one = some d → descriptors other = some d → one = other

section Refusals

variable {descriptors : Nat → Option Nat} {token : Nat} {fate : Fate} {fates : Fates} {live live' : Live} {connection : Connection}
  {poller poller' : Poller} {wish : Option Interest} {result : Applied}

/-- A connection that has an interest is watched. -/
theorem Watched.watches (watched : Watched descriptors live poller) (known : live.find? token = some connection)
    (interested : connection.interest ≠ none) : ∃ d, descriptors token = some d ∧ poller.watches d = true := by
  obtain ⟨interest, isInterest⟩ := Option.ne_none_iff_exists'.mp interested
  obtain ⟨before, after, rfl, -⟩ := List.lookup_eq_some_iff.mp known
  have asked : (token, descriptors token, interest) ∈ (before ++ (token, connection) :: after).filterMap (wanted? descriptors) :=
    List.mem_filterMap.mpr ⟨(token, connection), by simp, by rw [wanted?, isInterest]; rfl⟩
  obtain ⟨w, here, terms⟩ := List.mem_map.mp (watched.agree.mem_iff.mpr asked)
  have isOpen : some w.descriptor = descriptors token := congrArg (·.2.1) terms
  exact ⟨w.descriptor, isOpen.symm, List.any_eq_true.mpr ⟨w, here, beq_self_eq_true _⟩⟩

/-- Where something is watched there is a connection with an interest. -/
theorem Watched.watcher (watched : Watched descriptors live poller) {d : Nat} (used : poller.watches d = true) :
    ∃ entry ∈ live, descriptors entry.1 = some d ∧ entry.2.interest ≠ none := by
  obtain ⟨w, here, same⟩ := List.any_eq_true.mp used
  obtain ⟨entry, member, asks⟩ := List.mem_filterMap.mp (watched.agree.mem_iff.mp (List.mem_map_of_mem here))
  obtain ⟨interest, isInterest, terms⟩ := Option.map_eq_some_iff.mp asks
  have isOpen : descriptors entry.1 = some w.descriptor := congrArg (·.2.1) terms
  exact ⟨entry, member, isOpen.trans (congrArg some (beq_iff_eq.mp same)), by rw [isInterest]; simp⟩

/-- As long as descriptors are open and not shared, the poller does not refuse. -/
theorem Watched.grants (watched : Watched descriptors live poller) (distinct : (live.map Prod.fst).Nodup)
    (separate : Separate descriptors live) (known : live.find? token = some connection)
    (opened : wish ≠ none → descriptors token ≠ none) :
    rewatch? (descriptors token) token connection.interest wish poller ≠ none := by
  cases before : connection.interest with
  | some interest =>
    obtain ⟨d, isOpen, used⟩ := watched.watches known (by simp [before])
    rw [isOpen]
    cases wish <;> simp [rewatch?, Poller.reregister?, Poller.deregister?, used]
  | none =>
    cases wish with
    | none => simp [rewatch?]
    | some interest =>
      obtain ⟨d, isOpen⟩ := Option.ne_none_iff_exists'.mp (opened (by simp))
      have unused : poller.watches d = false := by
        refine Bool.eq_false_iff.mpr fun used => ?_
        obtain ⟨entry, member, sameDescriptor, interested⟩ := watched.watcher used
        obtain ⟨early, late, rfl, others⟩ := Live.split known distinct
        have isToken : entry.1 = token :=
          separate _ (List.mem_map_of_mem member) _ (by simp) d sameDescriptor isOpen
        rcases List.mem_append.mp member with first | later
        · exact others entry (List.mem_append_left _ first) isToken
        · rcases List.mem_cons.mp later with rfl | last
          · exact interested before
          · exact others entry (List.mem_append_right _ last) isToken
      simp [rewatch?, Poller.register?, isOpen, unused]

/-- Only a connection that has another interest asked for can be dropped. -/
theorem applyFate_dropped (applied : applyFate (descriptors token) token fate live poller = (.dropped, live', poller')) :
    ∃ connection wish, live.find? token = some connection ∧ fate = .interest wish ∧
      rewatch? (descriptors token) token connection.interest wish poller = none := by
  unfold applyFate at applied
  split at applied
  · cases applied
  · next connection known =>
    cases fate with
    | detach => cases applied
    | interest wish =>
      dsimp only at applied
      split at applied
      · cases applied
      · next refused => exact ⟨connection, wish, known, rfl, refused⟩

/-- Fates of different connections are not refused as long as descriptors are not shared, and open where they are needed. -/
theorem Watched.granted (watched : Watched descriptors live poller) (distinct : (live.map Prod.fst).Nodup)
    (separate : Separate descriptors live) (apart : (fates.map Prod.fst).Nodup)
    (opened : ∀ token, live.find? token ≠ none → ∀ interest, fates.lookup token = some (.interest (some interest)) →
      descriptors token ≠ none) : (Reactor.undergo descriptors fates live poller).Granted := by
  induction fates generalizing live poller with
  | nil => exact granted_nil
  | cons entry fates ih =>
    obtain ⟨token, fate⟩ := entry
    obtain ⟨fresh, apart⟩ := List.nodup_cons.mp apart
    cases applied : applyFate (descriptors token) token fate live poller with
    | mk result left =>
      obtain ⟨live', poller'⟩ := left
      have fewer := keys_applyFate applied
      refine (granted_cons_iff applied).mpr ⟨?_, ih (watched.apply distinct applied) (distinct.sublist fewer) ?_ apart ?_⟩
      · rintro rfl
        obtain ⟨connection, wish, known, rfl, refused⟩ := applyFate_dropped applied
        refine watched.grants distinct separate known (fun wished => ?_) refused
        obtain ⟨interest, rfl⟩ := Option.ne_none_iff_exists'.mp wished
        exact opened token (by simp [known]) interest List.lookup_cons_self
      · exact fun one first other second => separate one (fewer.subset first) other (fewer.subset second)
      · intro other known interest named
        have different : other ≠ token := by
          rintro rfl
          rw [Fates.lookup_eq_none_iff.mpr fresh] at named
          cases named
        rw [find?_applyFate_of_ne different applied] at known
        exact opened other known interest ((Fates.lookup_cons_ne different).trans named)

end Refusals

/-! ## What comes of a batch -/

section Batch

variable {descriptors : Nat → Option Nat} {token : Nat} {live : Live} {poller : Poller} {connection : Connection}
  {changes : List Change} {order : List Nat} {wish : Option Interest}

section Granted

variable (granted : (undergo descriptors ((Fates.ofChanges changes).inOrder order) live poller).Granted)
include granted

end Granted

end Batch

end PeerSubstrate.Reactor
