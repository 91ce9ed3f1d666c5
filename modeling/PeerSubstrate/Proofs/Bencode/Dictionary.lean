import Mathlib.Data.List.Induction
import Mathlib.Data.List.Nodup
import Mathlib.Data.List.Perm.Basic
import PeerSubstrate.Bencode.Dictionary

/-!
# Dictionaries as sorted lists

Insertion keeps the keys strictly ascending and adds one entry where the key is new. Entries with
distinct keys therefore make the same dictionary in whatever order they are inserted: the list of them
sorted by key (`ofEntries_eq_mergeSort`).
-/

namespace PeerSubstrate.Bencode.Dictionary

variable {α : Type}

theorem contains_iff {dict : Dictionary α} {key : Bytes} :
    contains dict key = true ↔ key ∈ dict.map Prod.fst := by
  induction dict with
  | nil => simp [contains, find?]
  | cons entry rest ih =>
    obtain ⟨k, v⟩ := entry
    by_cases same : k = key
    · simp [contains, find?, same]
    · simpa [contains, find?, same, Ne.symm same] using ih

theorem mem_keys_insert {dict : Dictionary α} {key other : Bytes} {value : α} :
    other ∈ (insert key value dict).map Prod.fst ↔ other = key ∨ other ∈ dict.map Prod.fst := by
  induction dict with
  | nil => simp [insert]
  | cons entry rest ih =>
    obtain ⟨k, v⟩ := entry
    rw [insert]
    split_ifs with less same
    · simp
    · simp [same]
    · rw [List.map_cons, List.mem_cons, ih, List.map_cons, List.mem_cons]
      exact or_left_comm

private theorem insert_perm {dict : Dictionary α} {key : Bytes} {value : α} (new : key ∉ dict.map Prod.fst) :
    (insert key value dict).Perm ((key, value) :: dict) := by
  induction dict with
  | nil => exact .refl _
  | cons entry rest ih =>
    obtain ⟨k, v⟩ := entry
    simp only [List.map_cons, List.mem_cons, not_or] at new
    rw [insert, if_neg (fun same : k = key => new.1 same.symm)]
    split_ifs with less
    · exact .refl _
    · exact ((ih new.2).cons (k, v)).trans (.swap ..)

theorem insert_ascending {dict : Dictionary α} (ascending : dict.Ascending) (key : Bytes) (value : α) :
    Ascending (insert key value dict) := by
  induction dict with
  | nil => exact List.pairwise_singleton _ _
  | cons entry rest ih =>
    obtain ⟨k, v⟩ := entry
    obtain ⟨above, ascendingRest⟩ := List.pairwise_cons.mp ascending
    rw [insert]
    split_ifs with less same
    · refine List.pairwise_cons.mpr ⟨?_, ascending⟩
      intro other member
      rcases List.mem_cons.mp member with rfl | member
      · exact less
      · exact List.lt_trans less (above other member)
    · exact List.pairwise_cons.mpr ⟨same ▸ above, ascendingRest⟩
    · refine List.pairwise_cons.mpr ⟨?_, ih ascendingRest⟩
      intro other member
      rcases mem_keys_insert.mp (List.mem_map_of_mem member) with isKey | member
      · rw [isKey]
        exact Std.lt_of_le_of_ne (Std.not_lt.mp less) same
      · obtain ⟨entry, inRest, isOther⟩ := List.mem_map.mp member
        exact isOther ▸ above entry inRest

theorem ofEntries_concat (entries : List (Bytes × α)) (key : Bytes) (value : α) :
    ofEntries (entries ++ [(key, value)]) = insert key value (ofEntries entries) := by
  simp [ofEntries]

theorem mem_keys_ofEntries {entries : List (Bytes × α)} {key : Bytes} :
    key ∈ (ofEntries entries).map Prod.fst ↔ key ∈ entries.map Prod.fst := by
  induction entries using List.reverseRecOn with
  | nil => rfl
  | append_singleton init last ih =>
    rw [ofEntries_concat, mem_keys_insert, ih]
    simp [or_comm]

theorem ofEntries_ascending (entries : List (Bytes × α)) : Ascending (ofEntries entries) := by
  induction entries using List.reverseRecOn with
  | nil => exact .nil
  | append_singleton init last ih =>
    rw [ofEntries_concat]
    exact insert_ascending ih _ _

private theorem ofEntries_perm {entries : List (Bytes × α)} (distinct : (entries.map Prod.fst).Nodup) :
    (ofEntries entries).Perm entries := by
  induction entries using List.reverseRecOn with
  | nil => exact .refl _
  | append_singleton init last ih =>
    rw [List.map_append, List.nodup_append] at distinct
    have new : last.1 ∉ (ofEntries init).map Prod.fst := by
      rw [mem_keys_ofEntries]
      intro member
      exact distinct.2.2 last.1 member last.1 (by simp) rfl
    rw [ofEntries_concat]
    exact (insert_perm new).trans (((ih distinct.1).cons last).trans (List.perm_append_singleton last init).symm)

/-- The entries of a dictionary determine it. -/
theorem eq_of_perm {one two : Dictionary α} (ascendingOne : one.Ascending) (ascendingTwo : two.Ascending)
    (perm : one.Perm two) : one = two := by
  refine List.Perm.eq_of_pairwise ?_ ascendingOne ascendingTwo perm
  intro a b _ _ less greater
  exact absurd greater (List.lt_asymm less)

theorem ascending_nodup {dict : Dictionary α} (ascending : dict.Ascending) : (dict.map Prod.fst).Nodup := by
  refine List.pairwise_map.mpr (ascending.imp ?_)
  intro a b less same
  exact List.lt_irrefl _ (same ▸ less)

theorem mergeSort_sorted (entries : List (Bytes × α)) :
    (entries.mergeSort fun a b => a.1 ≤ b.1).Pairwise fun a b => a.1 ≤ b.1 := by
  have pairwise := @List.pairwise_mergeSort (Bytes × α) (fun a b => decide (a.1 ≤ b.1))
    (fun a b c => by simpa using List.le_trans) (fun a b => by simpa using List.le_total a.1 b.1) entries
  exact pairwise.imp fun le => by simpa using le

theorem mergeSort_ascending {entries : List (Bytes × α)} (distinct : (entries.map Prod.fst).Nodup) :
    Ascending (entries.mergeSort fun a b => a.1 ≤ b.1) := by
  have sorted := mergeSort_sorted entries
  have keys : ((entries.mergeSort fun a b => a.1 ≤ b.1).map Prod.fst).Nodup :=
    ((List.mergeSort_perm entries _).map Prod.fst).nodup_iff.mpr distinct
  refine (sorted.and (List.pairwise_map.mp keys)).imp ?_
  rintro a b ⟨le, ne⟩
  exact Std.lt_of_le_of_ne le ne

/-- Entries with distinct keys make the dictionary that lists them in ascending order. -/
theorem ofEntries_eq_mergeSort {entries : List (Bytes × α)} (distinct : (entries.map Prod.fst).Nodup) :
    ofEntries entries = entries.mergeSort fun a b => a.1 ≤ b.1 :=
  eq_of_perm (ofEntries_ascending entries) (mergeSort_ascending distinct)
    ((ofEntries_perm distinct).trans (List.mergeSort_perm entries _).symm)

/-- A dictionary is sorted already. -/
theorem mergeSort_eq_self {dict : Dictionary α} (ascending : dict.Ascending) :
    (dict.mergeSort fun a b => a.1 ≤ b.1) = dict :=
  eq_of_perm (mergeSort_ascending (ascending_nodup ascending)) ascending (List.mergeSort_perm dict _)

end PeerSubstrate.Bencode.Dictionary
