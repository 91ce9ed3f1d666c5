import PeerSubstrate.Proofs.Bencode.Capacity
import PeerSubstrate.Proofs.Bencode.PrefixCode
import PeerSubstrate.Proofs.Bencode.RoundTrip

/-!
# Canonical texts

Arranging the entries of a value by their keys changes neither the length of its text nor how deep it nests,
and changes the text unless the keys were in order already (`Value.spell_arranged_iff`). What has been read
is therefore written back at the same length, and as it stood exactly if its keys were in order (`recoded`).
-/

namespace PeerSubstrate.Bencode
namespace Value

mutual
theorem length_spell_arranged : ∀ value : Value, value.arranged.spell.length = value.spell.length
  | .int _ => rfl
  | .bytes _ => rfl
  | .list items => by
    simp only [arranged, spell, List.length_cons, List.length_append, length_spellItems_arranged items]
  | .dict entries => by
    -- The sorted entries are the same entries, each of them as long as before.
    have sorted := (List.mergeSort_perm (arrangedEntries entries) fun a b => a.1 ≤ b.1).flatMap_right
      fun e => spellBytes e.1 ++ e.2.spell
    have same : (spellEntries ((arrangedEntries entries).mergeSort fun a b => a.1 ≤ b.1)).length =
        (spellEntries entries).length := by
      rw [spellEntries_eq, sorted.length_eq, ← spellEntries_eq, length_spellEntries_arranged entries]
    simp only [arranged, spell, List.length_cons, List.length_append, same]
theorem length_spellItems_arranged : ∀ items : List Value,
    (spellItems (arrangedItems items)).length = (spellItems items).length
  | [] => rfl
  | item :: items => by
    simp only [arrangedItems, spellItems, List.length_append, length_spell_arranged item,
      length_spellItems_arranged items]
theorem length_spellEntries_arranged : ∀ entries : List (Bytes × Value),
    (spellEntries (arrangedEntries entries)).length = (spellEntries entries).length
  | [] => rfl
  | (key, value) :: entries => by
    simp only [arrangedEntries, spellEntries, List.length_append, length_spell_arranged value,
      length_spellEntries_arranged entries]
end

private theorem nestingEntries_le_iff {entries : List (Bytes × Value)} {n : Nat} :
    nestingEntries entries ≤ n ↔ ∀ e ∈ entries, e.2.nesting ≤ n := by
  induction entries with
  | nil => simp [nestingEntries]
  | cons entry entries ih => rw [nestingEntries, Nat.max_le, ih, List.forall_mem_cons]

/-- A property of all entries of a dictionary, whatever their order. -/
theorem forall_mem_mergeSort {α : Type} {entries : List (Bytes × α)} {P : Bytes × α → Prop} :
    (∀ e ∈ entries.mergeSort (fun a b => a.1 ≤ b.1), P e) ↔ ∀ e ∈ entries, P e :=
  forall_congr' fun _ => by rw [List.mem_mergeSort]

mutual
theorem nesting_arranged : ∀ value : Value, value.arranged.nesting = value.nesting
  | .int _ => rfl
  | .bytes _ => rfl
  | .list items => by simp only [arranged, nesting, nestingItems_arranged items]
  | .dict entries => by
    have same : nestingEntries ((arrangedEntries entries).mergeSort fun a b => a.1 ≤ b.1) = nestingEntries entries := by
      have bounds : ∀ n, nestingEntries ((arrangedEntries entries).mergeSort fun a b => a.1 ≤ b.1) ≤ n ↔
          nestingEntries entries ≤ n := by
        intro n
        rw [nestingEntries_le_iff, forall_mem_mergeSort, ← nestingEntries_le_iff, nestingEntries_arranged entries]
      exact Nat.le_antisymm ((bounds _).mpr (Nat.le_refl _)) ((bounds _).mp (Nat.le_refl _))
    simp only [arranged, nesting, same]
theorem nestingItems_arranged : ∀ items : List Value, nestingItems (arrangedItems items) = nestingItems items
  | [] => rfl
  | item :: items => by simp only [arrangedItems, nestingItems, nesting_arranged item, nestingItems_arranged items]
theorem nestingEntries_arranged : ∀ entries : List (Bytes × Value),
    nestingEntries (arrangedEntries entries) = nestingEntries entries
  | [] => rfl
  | (key, value) :: entries => by
    simp only [arrangedEntries, nestingEntries, nesting_arranged value, nestingEntries_arranged entries]
end

mutual
theorem short_arranged : ∀ {value : Value}, value.Short → value.arranged.Short
  | .int _, _ => trivial
  | .bytes _, short => short
  | .list items, short => shortItems_arranged short
  | .dict entries, short => by
    rw [arranged, Short, shortEntries_iff, forall_mem_mergeSort, ← shortEntries_iff]
    exact shortEntries_arranged short
theorem shortItems_arranged : ∀ {items : List Value}, ShortItems items → ShortItems (arrangedItems items)
  | [], _ => trivial
  | _ :: _, ⟨first, others⟩ => ⟨short_arranged first, shortItems_arranged others⟩
theorem shortEntries_arranged : ∀ {entries : List (Bytes × Value)}, ShortEntries entries →
    ShortEntries (arrangedEntries entries)
  | [], _ => trivial
  | (_, _) :: _, ⟨key, first, others⟩ => ⟨key, short_arranged first, shortEntries_arranged others⟩
end

mutual
theorem ordered_arranged : ∀ {value : Value}, value.Distinct → value.arranged.Ordered
  | .int number, _ => .int number
  | .bytes content, _ => .bytes content
  | .list items, distinct => .list (orderedItems_arranged distinct)
  | .dict entries, ⟨keys, distinct⟩ => by
    refine .dict (Dictionary.mergeSort_ascending ?_) (forall_mem_mergeSort.mpr (orderedEntries_arranged distinct))
    rw [keys_arrangedEntries]
    exact keys
theorem orderedItems_arranged : ∀ {items : List Value}, DistinctItems items → ∀ item ∈ arrangedItems items, item.Ordered
  | [], _ => by simp [arrangedItems]
  | _ :: _, ⟨first, others⟩ => List.forall_mem_cons.mpr ⟨ordered_arranged first, orderedItems_arranged others⟩
theorem orderedEntries_arranged : ∀ {entries : List (Bytes × Value)}, DistinctEntries entries →
    ∀ e ∈ arrangedEntries entries, e.2.Ordered
  | [], _ => by simp [arrangedEntries]
  | (_, _) :: _, ⟨first, others⟩ => List.forall_mem_cons.mpr ⟨ordered_arranged first, orderedEntries_arranged others⟩
end

/-- Arranging leaves the text alone exactly if there is nothing to arrange. -/
theorem spell_arranged_iff {value : Value} (short : value.Short) (distinct : value.Distinct) :
    value.arranged.spell = value.spell ↔ value.Ordered := by
  constructor
  · intro same
    have arranged := ordered_arranged distinct
    rw [spell_inj (short_arranged short) short same] at arranged
    exact arranged
  · intro ordered
    rw [arranged_of_ordered ordered]

end Value

private theorem text_value (tree : Value) : (Encodable.value tree).text = tree.spell := by
  rw [Encodable.text, Encodable.pieces, Value.flatten_pieces]

/-- The text of an arranged dictionary is read back as that dictionary. -/
theorem decodeStart_arranged {entries : List (Bytes × Value)} {dict : Dict} (means : (Value.dict entries).arranged = .dict dict)
    (short : (Value.dict entries).Short) (distinct : (Value.dict entries).Distinct)
    (shallow : (Value.dict entries).nesting ≤ maxDepth) :
    decodeStart (Value.dict dict).spell = .ok (dict, (Value.dict dict).spell.length) := by
  have ordered := Value.ordered_arranged distinct
  have shortDict := Value.short_arranged short
  have shallowDict := Value.nesting_arranged (.dict entries)
  rw [means] at ordered shortDict shallowDict
  refine decodeStart_append_iff.mpr ⟨dict, [], (List.append_nil _).symm, rfl, Value.distinct_of_ordered ordered, shortDict, ?_,
    Value.arranged_of_ordered ordered⟩
  rw [shallowDict]
  exact shallow

/-- What has been read is written back at the length at which it was read, and read as the same once more. It comes
back as it stood exactly if the keys of every dictionary in it were in ascending order, and so it does the second
time; and it can be written under exactly the capacities that hold what was read. -/
theorem recoded {input : Bytes} {dict : Dict} {stop : Nat} (small : input.length < 2 ^ 63)
    (read : decodeStart input = .ok (dict, stop)) : ∃ text, dict.encoded = .ok text ∧ text.length = stop ∧
      decodeStart text = .ok (dict, stop) ∧
      (∃ tree, Spells (input.take stop) tree) ∧
      (∀ tree, Spells (input.take stop) tree → (text = input.take stop ↔ tree.Ordered)) ∧
      (∀ dict' stop', decodeStart text = .ok (dict', stop') → dict'.encoded = .ok text) ∧
      ∀ capacity, (∃ written, encode (.value (.dict dict)) capacity = .ok written) ↔ stop ≤ capacity := by
  obtain ⟨entries, more, rfl, isStop, distinct, short, shallow, means⟩ := decodeStart_append_iff.mp read
  have written := encode_value (.dict dict)
  have length := Value.length_spell_arranged (.dict entries)
  have again := decodeStart_arranged means short distinct shallow
  rw [means, ← isStop] at length
  rw [length] at again
  have prefixText : ((Value.dict entries).spell ++ more).take stop = (Value.dict entries).spell := by
    rw [isStop, List.take_left]
  refine ⟨(Value.dict dict).spell, written, length, again, ?_, ?_, ?_, ?_⟩
  · rw [prefixText]
    exact ⟨.dict entries, (spells_iff short).mpr ⟨rfl, distinct⟩⟩
  · intro tree spelled
    have within : (((Value.dict entries).spell ++ more).take stop).length < 2 ^ 63 := by
      rw [List.length_take]
      omega
    have shortTree := short_of_spells spelled within
    rw [prefixText] at spelled ⊢
    have isTree := Value.spell_inj short shortTree ((spells_iff shortTree).mp spelled).1
    rw [← isTree, ← means]
    exact Value.spell_arranged_iff short distinct
  · intro dict' stop' readAgain
    rw [again] at readAgain
    cases readAgain
    exact written
  · intro capacity
    have isText := text_value (.dict dict)
    constructor
    · rintro ⟨other, fits⟩
      by_contra beyond
      have exceeds : capacity < (Encodable.value (.dict dict)).text.length := by
        rw [isText, length]
        exact Nat.lt_of_not_le beyond
      have bounded : (Encodable.value (.dict dict)).text.length < 2 ^ 64 := by
        rw [List.length_append, ← isStop] at small
        rw [isText, length]
        omega
      obtain ⟨_, _, refused, _⟩ := encode_of_exceeds exceeds bounded
      rw [fits] at refused
      cases refused
    · intro room
      exact ⟨_, encode_of_fits (by rw [isText, length]; exact room)⟩

/-- A message whose keys are out of order, with a byte behind it. -/
def unorderedKeys : Bytes := [100, 49, 58, 98, 105, 50, 101, 49, 58, 97, 108, 101, 101, 33]

theorem unordered_keys_recoded : unorderedKeys.length < 2 ^ 63 ∧
    decodeStart unorderedKeys = .ok ([([97], .list []), ([98], .int 2)], 13) ∧
    ∃ text tree, Dict.encoded [([97], .list []), ([98], .int 2)] = .ok text ∧ text.length = 13 ∧
      Spells (unorderedKeys.take 13) tree ∧ ¬ tree.Ordered := by
  have small : unorderedKeys.length < 2 ^ 63 := by decide
  have read : decodeStart unorderedKeys = .ok ([([97], .list []), ([98], .int 2)], 13) := rfl
  have written : Dict.encoded [([97], .list []), ([98], .int 2)] =
      .ok [100, 49, 58, 97, 108, 101, 49, 58, 98, 105, 50, 101, 101] := rfl
  obtain ⟨text, encoded, length, -, ⟨tree, spelled⟩, asItStood, -⟩ := recoded small read
  refine ⟨small, read, text, tree, encoded, length, spelled, fun ordered => ?_⟩
  have same := (asItStood tree spelled).mpr ordered
  rw [← Except.ok.inj (written.symm.trans encoded)] at same
  exact absurd same (by decide)

end PeerSubstrate.Bencode
