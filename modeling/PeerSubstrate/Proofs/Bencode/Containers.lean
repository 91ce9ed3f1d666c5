import PeerSubstrate.Proofs.Bencode.Capacity

/-!
# Dictionaries of any origin

What a dictionary holds under each key determines the list of its entries, whatever was done to build it
(`Dictionary.perm_of_holds`), and with distinct keys the order in which entries are given does not matter for how
they are written (`Write.dict_of_perm`). So the entries alone decide what is written, whichever container they come
in (`written_alike`), and without a limit that is their text in the order of the keys (`Write.dict_unlimited`). A map
that has no order of its own gives its entries to `Write.dict` in any order; `Encodable.ofMap` is one that is kept in
the order of its keys. Entries that share a key stay in the order given.
-/

namespace PeerSubstrate.Bencode
open Text (utf8)

namespace Dictionary

variable {α : Type}

private theorem find?_insert (dict : Dictionary α) (key other : Bytes) (value : α) :
    find? other (insert key value dict) = if key = other then some value else find? other dict := by
  induction dict with
  | nil => rfl
  | cons entry rest ih =>
    obtain ⟨k, v⟩ := entry
    by_cases less : key < k
    · rw [insert, if_pos less, find?]
    by_cases same : k = key
    · rw [insert, if_neg less, if_pos same, find?, find?, same]
      split_ifs <;> rfl
    · rw [insert, if_neg less, if_neg same, find?, find?, ih]
      split_ifs with isHead isKey
      · exact absurd (isHead.trans isKey.symm) same
      all_goals rfl

/-- Of several entries with one key the last remains. -/
theorem find?_ofEntries (entries : List (Bytes × α)) (key : Bytes) :
    find? key (ofEntries entries) = entries.reverse.lookup key := by
  induction entries using List.reverseRecOn with
  | nil => rfl
  | append_singleton init last ih =>
    obtain ⟨k, v⟩ := last
    rw [ofEntries_concat, find?_insert, ih, List.reverse_concat, List.lookup_cons]
    by_cases same : key = k
    · simp [same]
    · have other : (key == k) = false := by simpa using same
      rw [if_neg (Ne.symm same), other]

private theorem mem_iff_find? {dict : Dictionary α} (ascending : dict.Ascending) {key : Bytes} {value : α} :
    (key, value) ∈ dict ↔ find? key dict = some value := by
  induction dict with
  | nil => simp [find?]
  | cons entry rest ih =>
    obtain ⟨k, v⟩ := entry
    obtain ⟨above, ascendingRest⟩ := List.pairwise_cons.mp ascending
    rw [find?, List.mem_cons, ih ascendingRest, Prod.mk.injEq]
    split_ifs with same
    · -- The key occurs nowhere behind its first entry.
      have absent : find? key rest ≠ some value := by
        intro found
        have less := above _ ((ih ascendingRest).mpr found)
        exact List.lt_irrefl _ (same ▸ less)
      simp [same, absent, eq_comm]
    · simp [Ne.symm same]

/-- A dictionary consists of the entries that it holds. -/
theorem perm_of_holds {dict : Dictionary α} (ascending : dict.Ascending) {entries : List (Bytes × α)}
    (distinct : (entries.map Prod.fst).Nodup)
    (holds : ∀ key value, find? key dict = some value ↔ (key, value) ∈ entries) : dict.Perm entries := by
  refine (List.perm_ext_iff_of_nodup (ascending_nodup ascending).of_map distinct.of_map).mpr ?_
  rintro ⟨key, value⟩
  rw [mem_iff_find? ascending, holds]

private theorem erase_sublist (key : Bytes) (dict : Dictionary α) : (erase key dict).Sublist dict := by
  induction dict with
  | nil => exact .slnil
  | cons entry rest ih =>
    obtain ⟨k, v⟩ := entry
    rw [erase]
    split_ifs
    · exact .cons _ (.refl _)
    · exact ih.cons_cons _

/-- What can be done to a dictionary on the way; a new one may be collected from entries in place of the old one. -/
inductive Edit (α : Type) where
  | insert (key : Bytes) (value : α)
  | remove (key : Bytes)
  | collect (entries : List (Bytes × α))

/-- The dictionary after an edit. -/
def Edit.apply (dict : Dictionary α) : Edit α → Dictionary α
  | .insert key value => Dictionary.insert key value dict
  | .remove key => erase key dict
  | .collect entries => ofEntries entries

/-- The dictionary that is empty at first, after all these edits. -/
def edited (edits : List (Edit α)) : Dictionary α := edits.foldl Edit.apply []

private theorem Edit.apply_ascending {dict : Dictionary α} (ascending : dict.Ascending) (edit : Edit α) :
    Ascending (edit.apply dict) := by
  cases edit with
  | insert key value => exact insert_ascending ascending key value
  | remove key => exact ascending.sublist (erase_sublist key dict)
  | collect entries => exact ofEntries_ascending entries

private theorem edited_ascending (edits : List (Edit α)) : Ascending (edited edits) := by
  induction edits using List.reverseRecOn with
  | nil => exact .nil
  | append_singleton init last ih =>
    rw [edited, List.foldl_concat]
    exact Edit.apply_ascending ih last

/-- Sorting leaves the entries of any one key in their order. -/
theorem filter_mergeSort (entries : List (Bytes × α)) (key : Bytes) :
    (entries.mergeSort fun a b => a.1 ≤ b.1).filter (fun entry => entry.1 = key) =
      entries.filter fun entry => entry.1 = key := by
  have sorted : (entries.filter fun entry => entry.1 = key).Pairwise fun a b => decide (a.1 ≤ b.1) = true := by
    refine List.pairwise_of_forall_mem_list ?_
    intro a inA b inB
    have isKeyA : a.1 = key := by simpa using (List.mem_filter.mp inA).2
    have isKeyB : b.1 = key := by simpa using (List.mem_filter.mp inB).2
    simp [isKeyA, isKeyB]
  have within : (entries.filter fun entry => entry.1 = key).Sublist (entries.mergeSort fun a b => a.1 ≤ b.1) :=
    List.sublist_mergeSort (fun a b c => by simpa using List.le_trans) (fun a b => by simpa using List.le_total a.1 b.1)
      sorted List.filter_sublist
  have again := within.filter fun entry => decide (entry.1 = key)
  simp only [List.filter_filter, Bool.and_self] at again
  have sameLength := ((List.mergeSort_perm entries fun a b => a.1 ≤ b.1).filter fun entry => entry.1 = key).length_eq
  exact (again.eq_of_length sameLength.symm).symm

end Dictionary

open Dictionary

/-- Entries with distinct keys are written alike in whatever order they are given. -/
theorem Write.dict_of_perm {given other : List (Bytes × Write)} (distinct : (given.map Prod.fst).Nodup)
    (perm : other.Perm given) : Write.dict other = Write.dict given := by
  have distinctOther := (perm.map Prod.fst).nodup_iff.mpr distinct
  have same := eq_of_perm (mergeSort_ascending distinctOther) (mergeSort_ascending distinct)
    ((List.mergeSort_perm other _).trans (perm.trans (List.mergeSort_perm given _).symm))
  rw [dict, dict, same]

/-- Entries in ascending order are written as they are. -/
theorem Write.entries_eq_dict {given : List (Bytes × Write)} (ascending : Dictionary.Ascending given) :
    Write.entries given = Write.dict given := by
  rw [dict, mergeSort_eq_self ascending]

private theorem Value.writeEntries_eq_map (entries : List (Bytes × Value)) :
    Value.writeEntries entries = entries.map fun entry => (entry.1, entry.2.write) := by
  induction entries with
  | nil => rfl
  | cons entry entries ih => rw [Value.writeEntries, ih, List.map_cons]

private theorem Encodable.writeEntries_eq_map (entries : List (Bytes × Encodable)) :
    Encodable.writeEntries entries = entries.map fun entry => (entry.1, entry.2.write) := by
  induction entries with
  | nil => rfl
  | cons entry entries ih => rw [Encodable.writeEntries, ih, List.map_cons]

/-- Without a limit the keys, each in front of the text of its value, come out in ascending order between the markers. -/
theorem Write.dict_unlimited (given : List (Bytes × Encodable)) {e : Encoder} (unlimited : e.capacity = maxLength) :
    Write.dict (given.map fun entry => (entry.1, entry.2.write)) e =
      (.ok (), e.append ([100] ++ ((given.map fun entry => (entry.1, entry.2.text)).mergeSort fun a b => a.1 ≤ b.1).flatMap
        (fun entry => spellBytes entry.1 ++ entry.2) ++ [101])) := by
  have rowOfPieces := (Encodable.dict given).write_eq
  rw [Encodable.write, Encodable.writeEntries_eq_map] at rowOfPieces
  rw [rowOfPieces, Write.pieces_unlimited _ unlimited, ← Encodable.text_dict]
  rfl

/-- A dictionary is written as the entries it holds are, in whatever order these are given. -/
theorem Value.write_of_holds {dict : Dict} (ascending : dict.Ascending) {entries : List (Bytes × Value)}
    (distinct : (entries.map Prod.fst).Nodup)
    (holds : ∀ key value, find? key dict = some value ↔ (key, value) ∈ entries) :
    (Value.dict dict).write = Write.dict (entries.map fun entry => (entry.1, entry.2.write)) := by
  have ascendingWrites : Ascending (dict.map fun entry => (entry.1, entry.2.write)) := List.pairwise_map.mpr ascending
  have perm := (perm_of_holds ascending distinct holds).map fun entry => (entry.1, entry.2.write)
  have sameKeys : ((entries.map fun entry => (entry.1, entry.2.write)).map Prod.fst).Nodup := by
    rw [List.map_map]
    exact distinct
  rw [Value.write, Value.writeEntries_eq_map, Write.entries_eq_dict ascendingWrites, Write.dict_of_perm sameKeys perm]

private theorem utf8_injective : Function.Injective utf8 := by
  intro one two same
  exact String.toByteArray_inj.mp (ByteArray.ext (Array.toList_inj.mp same))

private theorem lookup_utf8 {α : Type} (entries : List (String × α)) (key : String) :
    (entries.map fun entry => (utf8 entry.1, entry.2)).lookup (utf8 key) = entries.lookup key := by
  induction entries with
  | nil => rfl
  | cons entry entries ih =>
    obtain ⟨k, v⟩ := entry
    have sameTest : (utf8 key == utf8 k) = (key == k) := by
      rw [Bool.eq_iff_iff, beq_iff_eq, beq_iff_eq]
      exact utf8_injective.eq_iff
    rw [List.map_cons, List.lookup_cons, List.lookup_cons, sameTest, ih]

/-- A map from texts holds, in UTF-8, what was inserted last under each of its keys. -/
theorem holds_ofMap {α : Type} {inserted entries : List (String × α)}
    (remains : ∀ key item, inserted.reverse.lookup key = some item ↔ (key, item) ∈ entries) (key : Bytes) (item : α) :
    find? key (ofEntries (inserted.map fun entry => (utf8 entry.1, entry.2))) = some item ↔
      (key, item) ∈ entries.map fun entry => (utf8 entry.1, entry.2) := by
  have found : ∀ text, find? (utf8 text) (ofEntries (inserted.map fun entry => (utf8 entry.1, entry.2))) =
      inserted.reverse.lookup text := by
    intro text
    rw [find?_ofEntries, ← List.map_reverse, lookup_utf8]
  constructor
  · intro holds
    have inKeys := List.mem_map_of_mem (f := Prod.fst) ((mem_iff_find? (ofEntries_ascending _)).mpr holds)
    rw [mem_keys_ofEntries, List.map_map] at inKeys
    obtain ⟨entry, -, rfl⟩ := List.mem_map.mp inKeys
    exact List.mem_map.mpr ⟨(entry.1, item), (remains _ _).mp ((found entry.1).symm.trans holds), rfl⟩
  · intro member
    obtain ⟨entry, inEntries, isEntry⟩ := List.mem_map.mp member
    cases isEntry
    exact (found entry.1).trans ((remains _ _).mpr inEntries)

private theorem Encodable.write_ofMap {inserted entries : List (String × Encodable)} (distinct : (entries.map Prod.fst).Nodup)
    (remains : ∀ key item, inserted.reverse.lookup key = some item ↔ (key, item) ∈ entries) :
    (Encodable.ofMap inserted).write = Write.dict (entries.map fun entry => (utf8 entry.1, entry.2.write)) := by
  have distinctBytes : ((entries.map fun entry => (utf8 entry.1, entry.2)).map Prod.fst).Nodup := by
    have mapped := distinct.map utf8_injective
    rw [List.map_map] at mapped ⊢
    exact mapped
  have perm := (perm_of_holds (ofEntries_ascending _) distinctBytes (holds_ofMap remains)).map
    fun entry => (entry.1, entry.2.write)
  rw [List.map_map] at perm
  have distinctWrites : ((entries.map fun entry => (utf8 entry.1, entry.2.write)).map Prod.fst).Nodup := by
    rw [List.map_map] at distinctBytes ⊢
    exact distinctBytes
  rw [← Write.dict_of_perm distinctWrites perm, ← Encodable.writeEntries_eq_map]
  rfl

/-- Into whatever encoder they are written, entries with distinct keys have the same outcome in every order; so have a
map from texts with these entries, whatever was inserted into it on the way, and a dictionary of values with these entries,
whatever edits built it. Where keys repeat, all entries are written in the order of their keys, those with one key in
the order given. -/
theorem written_alike :
    (∀ given other : List (Bytes × Write), (given.map Prod.fst).Nodup → other.Perm given →
      ∀ e, Write.dict other e = Write.dict given e) ∧
    (∀ given inserted : List (String × Encodable), (given.map Prod.fst).Nodup →
      (∀ key item, inserted.reverse.lookup key = some item ↔ (key, item) ∈ given) →
      ∀ e, (Encodable.ofMap inserted).write e = Write.dict (given.map fun entry => (utf8 entry.1, entry.2.write)) e) ∧
    (∀ (given : List (Bytes × Value)) (edits : List (Edit Value)), (given.map Prod.fst).Nodup →
      (∀ key value, find? key (edited edits) = some value ↔ (key, value) ∈ given) →
      ∀ e, (Value.dict (edited edits)).write e = Write.dict (given.map fun entry => (entry.1, entry.2.write)) e) ∧
    ∀ given : List (Bytes × Write), ∃ emitted, Write.dict given = Write.entries emitted ∧ emitted.Perm given ∧
      emitted.Pairwise (fun a b => a.1 ≤ b.1) ∧
      ∀ key, emitted.filter (fun entry => entry.1 = key) = given.filter fun entry => entry.1 = key := by
  refine ⟨?_, ?_, ?_, ?_⟩
  · intro given other distinct perm e
    rw [Write.dict_of_perm distinct perm]
  · intro given inserted distinct remains e
    rw [Encodable.write_ofMap distinct remains]
  · intro given edits distinct holds e
    rw [Value.write_of_holds (edited_ascending edits) distinct holds]
  · intro given
    refine ⟨_, rfl, List.mergeSort_perm given _, Dictionary.mergeSort_sorted given, filter_mergeSort given⟩

/-- The keys `a` and `B` in either order, within nine bytes; in a map where `a` was written over; in a dictionary that held a
third key for a while; and `a` twice. -/
theorem two_keys_written_alike :
    Write.dict [([97], .int 1), ([66], .int 0)] { capacity := 9 } =
      Write.dict [([66], .int 0), ([97], .int 1)] { capacity := 9 } ∧
    (Encodable.ofMap [("a", .int 7), ("B", .int 0), ("a", .int 1)]).write { capacity := 9 } =
      Write.dict [(utf8 "B", .int 0), (utf8 "a", .int 1)] { capacity := 9 } ∧
    (Value.dict (edited [.insert [97] (.int 1), .insert [98] (.int 3), .remove [98], .insert [66] (.int 0)])).write
        { capacity := 9 } =
      Write.dict [([66], .int 0), ([97], .int 1)] { capacity := 9 } ∧
    ∃ emitted, Write.dict [([97], .int 2), ([97], .int 1)] = Write.entries emitted ∧
      emitted.filter (fun entry => entry.1 = [97]) = [([97], .int 2), ([97], .int 1)] := by
  obtain ⟨orders, maps, dictionaries, repeated⟩ := written_alike
  refine ⟨?_, ?_, ?_, ?_⟩
  · exact orders [([66], .int 0), ([97], .int 1)] _ (by decide) (.swap ..) _
  · refine maps [("B", .int 0), ("a", .int 1)] _ (by decide) ?_ _
    intro key item
    by_cases isLower : key = "a"
    · subst isLower
      simp [eq_comm]
    by_cases isUpper : key = "B"
    · subst isUpper
      simp [List.lookup_cons, eq_comm]
    · have notLower : (key == "a") = false := by simpa using isLower
      have notUpper : (key == "B") = false := by simpa using isUpper
      simp [List.lookup_cons, notLower, notUpper, isLower, isUpper]
  · exact dictionaries [([66], .int 0), ([97], .int 1)] _ (by decide) (fun key value => (mem_iff_find? (by decide)).symm) _
  · obtain ⟨emitted, same, -, -, inOrder⟩ := repeated [([97], .int 2), ([97], .int 1)]
    exact ⟨emitted, same, inOrder [97]⟩

end PeerSubstrate.Bencode
