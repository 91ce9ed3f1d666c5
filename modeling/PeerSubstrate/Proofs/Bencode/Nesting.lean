import PeerSubstrate.Proofs.Bencode.Grammar

/-!
# Where containers open

The containers of a value in the order in which they open in its text, each with the offset of its
opening byte and the number of containers that are open behind it. Some container opens at a level
exactly if the value nests as deep (`exists_opening_iff`).
-/

namespace PeerSubstrate.Bencode

/-- A container opens: where its first byte stands, and how many containers are open behind that byte. -/
structure Opening where
  offset : Nat
  level : Nat
  deriving DecidableEq

namespace Value

mutual
/-- The containers that open in a value whose text begins at `offset`, inside of `level` others. -/
def openings (offset level : Nat) : Value → List Opening
  | .int _ | .bytes _ => []
  | .list items => ⟨offset, level + 1⟩ :: openingsItems (offset + 1) (level + 1) items
  | .dict entries => ⟨offset, level + 1⟩ :: openingsEntries (offset + 1) (level + 1) entries
/-- The containers that open in one item after another. -/
def openingsItems (offset level : Nat) : List Value → List Opening
  | [] => []
  | item :: items => item.openings offset level ++ openingsItems (offset + item.spell.length) level items
/-- The containers that open in one entry after another; none opens in a key. -/
def openingsEntries (offset level : Nat) : List (Bytes × Value) → List Opening
  | [] => []
  | (key, value) :: entries =>
    value.openings (offset + (spellBytes key).length) level ++
      openingsEntries (offset + (spellBytes key).length + value.spell.length) level entries
end

mutual
theorem exists_opening_iff : ∀ (value : Value) (offset level n : Nat),
    (∃ o ∈ value.openings offset level, o.level = n) ↔ level < n ∧ n ≤ level + value.nesting
  | .int _, offset, level, n => by
    simp only [openings, nesting, List.not_mem_nil, false_and, exists_false, false_iff]
    omega
  | .bytes _, offset, level, n => by
    simp only [openings, nesting, List.not_mem_nil, false_and, exists_false, false_iff]
    omega
  | .list items, offset, level, n => by
    have inside := exists_opening_items_iff items (offset + 1) (level + 1) n
    simp only [openings, nesting, List.mem_cons, exists_eq_or_imp, inside]
    omega
  | .dict entries, offset, level, n => by
    have inside := exists_opening_entries_iff entries (offset + 1) (level + 1) n
    simp only [openings, nesting, List.mem_cons, exists_eq_or_imp, inside]
    omega
theorem exists_opening_items_iff : ∀ (items : List Value) (offset level n : Nat),
    (∃ o ∈ openingsItems offset level items, o.level = n) ↔ level < n ∧ n ≤ level + nestingItems items
  | [], offset, level, n => by
    simp only [openingsItems, nestingItems, List.not_mem_nil, false_and, exists_false, false_iff]
    omega
  | item :: items, offset, level, n => by
    have first := exists_opening_iff item offset level n
    have others := exists_opening_items_iff items (offset + item.spell.length) level n
    simp only [openingsItems, nestingItems, List.mem_append, or_and_right, exists_or, first, others]
    omega
theorem exists_opening_entries_iff : ∀ (entries : List (Bytes × Value)) (offset level n : Nat),
    (∃ o ∈ openingsEntries offset level entries, o.level = n) ↔ level < n ∧ n ≤ level + nestingEntries entries
  | [], offset, level, n => by
    simp only [openingsEntries, nestingEntries, List.not_mem_nil, false_and, exists_false, false_iff]
    omega
  | (key, value) :: entries, offset, level, n => by
    have first := exists_opening_iff value (offset + (spellBytes key).length) level n
    have others := exists_opening_entries_iff entries
      (offset + (spellBytes key).length + value.spell.length) level n
    simp only [openingsEntries, nestingEntries, List.mem_append, or_and_right, exists_or, first, others]
    omega
end

mutual
theorem opening_inside : ∀ (value : Value) {offset level : Nat}, ∀ o ∈ value.openings offset level,
    offset ≤ o.offset ∧ o.offset < offset + value.spell.length
  | .list items, offset, level, o, member => by
    simp only [openings, List.mem_cons] at member
    simp only [spell, List.length_cons, List.length_append]
    rcases member with rfl | member
    · simp only
      omega
    · have inside := opening_items_inside items o member
      omega
  | .dict entries, offset, level, o, member => by
    simp only [openings, List.mem_cons] at member
    simp only [spell, List.length_cons, List.length_append]
    rcases member with rfl | member
    · simp only
      omega
    · have inside := opening_entries_inside entries o member
      omega
theorem opening_items_inside : ∀ (items : List Value) {offset level : Nat}, ∀ o ∈ openingsItems offset level items,
    offset ≤ o.offset ∧ o.offset < offset + (spellItems items).length
  | item :: items, offset, level, o, member => by
    simp only [openingsItems, List.mem_append] at member
    rw [spellItems, List.length_append]
    rcases member with member | member
    · have inside := opening_inside item o member
      omega
    · have inside := opening_items_inside items o member
      omega
theorem opening_entries_inside : ∀ (entries : List (Bytes × Value)) {offset level : Nat},
    ∀ o ∈ openingsEntries offset level entries,
    offset ≤ o.offset ∧ o.offset < offset + (spellEntries entries).length
  | (key, value) :: entries, offset, level, o, member => by
    simp only [openingsEntries, List.mem_append] at member
    rw [spellEntries, List.length_append, List.length_append]
    rcases member with member | member
    · have inside := opening_inside value o member
      omega
    · have inside := opening_entries_inside entries o member
      omega
end

mutual
/-- Containers are listed in the order in which they open. -/
theorem openings_ascending : ∀ (value : Value) (offset level : Nat),
    (value.openings offset level).Pairwise fun o o' => o.offset < o'.offset
  | .int _, _, _ => .nil
  | .bytes _, _, _ => .nil
  | .list items, _, _ =>
    .cons (fun o member => (opening_items_inside items o member).1) (openings_items_ascending items _ _)
  | .dict entries, _, _ =>
    .cons (fun o member => (opening_entries_inside entries o member).1) (openings_entries_ascending entries _ _)
theorem openings_items_ascending : ∀ (items : List Value) (offset level : Nat),
    (openingsItems offset level items).Pairwise fun o o' => o.offset < o'.offset
  | [], _, _ => .nil
  | item :: items, offset, level => by
    refine List.pairwise_append.mpr ⟨openings_ascending item _ _, openings_items_ascending items _ _, ?_⟩
    intro o member o' member'
    have one := opening_inside item o member
    have two := opening_items_inside items o' member'
    omega
theorem openings_entries_ascending : ∀ (entries : List (Bytes × Value)) (offset level : Nat),
    (openingsEntries offset level entries).Pairwise fun o o' => o.offset < o'.offset
  | [], _, _ => .nil
  | (key, value) :: entries, offset, level => by
    refine List.pairwise_append.mpr ⟨openings_ascending value _ _, openings_entries_ascending entries _ _, ?_⟩
    intro o member o' member'
    have one := opening_inside value o member
    have two := opening_entries_inside entries o' member'
    omega
end

mutual
/-- Where a container opens, the text has a `d` or an `l`. -/
theorem opening_byte : ∀ (value : Value) {level : Nat} (before : Bytes), ∀ o ∈ value.openings before.length level,
    ∃ byte, (byte = 100 ∨ byte = 108) ∧ ∀ behind, (before ++ (value.spell ++ behind))[o.offset]? = some byte
  | .list items, level, before, o, member => by
    simp only [openings, List.mem_cons] at member
    rcases member with rfl | member
    · refine ⟨108, .inr rfl, fun behind => ?_⟩
      rw [List.getElem?_append_right (Nat.le_refl _), Nat.sub_self]
      rfl
    · rw [← @List.length_concat _ before 108] at member
      obtain ⟨byte, isByte, found⟩ := opening_items_byte items (before.concat 108) o member
      refine ⟨byte, isByte, fun behind => (Eq.symm ?_).trans (found ([101] ++ behind))⟩
      simp [spell]
  | .dict entries, level, before, o, member => by
    simp only [openings, List.mem_cons] at member
    rcases member with rfl | member
    · refine ⟨100, .inl rfl, fun behind => ?_⟩
      rw [List.getElem?_append_right (Nat.le_refl _), Nat.sub_self]
      rfl
    · rw [← @List.length_concat _ before 100] at member
      obtain ⟨byte, isByte, found⟩ := opening_entries_byte entries (before.concat 100) o member
      refine ⟨byte, isByte, fun behind => (Eq.symm ?_).trans (found ([101] ++ behind))⟩
      simp [spell]
theorem opening_items_byte : ∀ (items : List Value) {level : Nat} (before : Bytes),
    ∀ o ∈ openingsItems before.length level items,
    ∃ byte, (byte = 100 ∨ byte = 108) ∧ ∀ behind, (before ++ (spellItems items ++ behind))[o.offset]? = some byte
  | item :: items, level, before, o, member => by
    simp only [openingsItems, List.mem_append] at member
    rcases member with member | member
    · obtain ⟨byte, isByte, found⟩ := opening_byte item before o member
      refine ⟨byte, isByte, fun behind => ?_⟩
      rw [spellItems, List.append_assoc]
      exact found _
    · rw [← List.length_append] at member
      obtain ⟨byte, isByte, found⟩ := opening_items_byte items (before ++ item.spell) o member
      refine ⟨byte, isByte, fun behind => ?_⟩
      rw [spellItems, List.append_assoc, ← List.append_assoc before]
      exact found behind
theorem opening_entries_byte : ∀ (entries : List (Bytes × Value)) {level : Nat} (before : Bytes),
    ∀ o ∈ openingsEntries before.length level entries,
    ∃ byte, (byte = 100 ∨ byte = 108) ∧ ∀ behind, (before ++ (spellEntries entries ++ behind))[o.offset]? = some byte
  | (key, value) :: entries, level, before, o, member => by
    simp only [openingsEntries, List.mem_append, ← List.length_append] at member
    rw [spellEntries]
    rcases member with member | member
    · obtain ⟨byte, isByte, found⟩ := opening_byte value (before ++ spellBytes key) o member
      refine ⟨byte, isByte, fun behind => (Eq.symm ?_).trans (found (spellEntries entries ++ behind))⟩
      simp only [List.append_assoc]
    · obtain ⟨byte, isByte, found⟩ := opening_entries_byte entries (before ++ spellBytes key ++ value.spell) o member
      refine ⟨byte, isByte, fun behind => (Eq.symm ?_).trans (found behind)⟩
      simp only [List.append_assoc]
end

/-- The first container of a value that opens inside of the most that may be open. -/
def firstTooDeep (value : Value) : Option Opening :=
  (value.openings 0 0).find? fun o => o.level = maxDepth + 1

theorem firstTooDeep_isSome (value : Value) : value.firstTooDeep.isSome ↔ maxDepth < value.nesting := by
  have reached := exists_opening_iff value 0 0 (maxDepth + 1)
  rw [firstTooDeep, List.find?_isSome]
  simp only [decide_eq_true_eq]
  rw [reached]
  omega

/-- The first container too deep is at level `maxDepth + 1`, and every other one there opens later. -/
theorem firstTooDeep_first {value : Value} {o : Opening} (first : value.firstTooDeep = some o) :
    o ∈ value.openings 0 0 ∧ o.level = maxDepth + 1 ∧
      ∀ o' ∈ value.openings 0 0, o'.level = maxDepth + 1 → o.offset ≤ o'.offset := by
  obtain ⟨deep, before, behind, all, earlier⟩ := List.find?_eq_some_iff_append.mp first
  have ascending := value.openings_ascending 0 0
  rw [all] at ascending
  refine ⟨by rw [all]; simp, by simpa using deep, ?_⟩
  intro o' member deep'
  rw [all, List.mem_append, List.mem_cons] at member
  rcases member with member | rfl | member
  · have shallow := earlier o' member
    simp [deep'] at shallow
  · exact Nat.le_refl _
  · exact Nat.le_of_lt ((List.pairwise_cons.mp (List.pairwise_append.mp ascending).2.1).1 o' member)

end Value

end PeerSubstrate.Bencode
