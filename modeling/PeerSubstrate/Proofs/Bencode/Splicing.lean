import PeerSubstrate.Proofs.Bencode.Containers
import PeerSubstrate.Proofs.Bencode.Continuation

/-!
# Splicing

Any parts of what is to be written may be encoded beforehand, each by itself, and put in as bytes that are already encoded
(`Spliced`). The whole has the same text (`Spliced.text_eq`), and the text alone decides under which capacities it can be
encoded (`encode_eq_ok_iff`), whatever the pieces it is written in. So splicing does not show (`encode_of_spliced`).
-/

namespace PeerSubstrate.Bencode
open Text (utf8)

/-- A row of pieces that is written under a limit ends within it. -/
theorem Write.fits_of_pieces {texts : List Bytes} : ∀ {e : Encoder}, e.length ≤ e.capacity → e.capacity < maxLength →
    (pieces texts e).1 = .ok () → e.length + texts.flatten.length ≤ e.capacity := by
  induction texts with
  | nil =>
    intro e room _ _
    exact room
  | cons text texts ih =>
    intro e _ limited written
    obtain ⟨fits, isWritten⟩ | ⟨-, refused⟩ := raw_cases text e
    · rw [pieces_of_written isWritten] at written
      have others := @ih (e.append text) (by rw [Encoder.length_append, Encoder.capacity_append]; omega) limited written
      rw [Encoder.length_append, Encoder.capacity_append] at others
      rw [List.flatten_cons, List.length_append]
      omega
    · rw [pieces_of_refused refused] at written
      cases written

/-- Encoding succeeds where the text fits and where there is no limit, and yields the text. -/
theorem encode_eq_ok_iff {source : Encodable} {capacity : Nat} {bytes : Bytes} :
    encode source capacity = .ok bytes ↔ (source.text.length ≤ capacity ∨ maxLength ≤ capacity) ∧ source.text = bytes := by
  obtain all | ⟨written, refused, cut⟩ := Write.pieces_cases source.pieces { capacity }
  · rw [encode_of_written all, Except.ok.injEq]
    refine ⟨fun same => ⟨?_, same⟩, And.right⟩
    by_cases limited : capacity < maxLength
    · have fits := Write.fits_of_pieces (Nat.zero_le _) limited (congrArg Prod.fst all)
      rw [show ({ capacity } : Encoder).length = 0 from rfl, Nat.zero_add] at fits
      exact .inl fits
    · exact .inr (Nat.le_of_not_lt limited)
  · constructor
    · intro succeeds
      rw [encode, source.write_eq, cut.result] at succeeds
      cases succeeds
    · rintro ⟨fits | unlimited, -⟩
      · -- The piece that was refused ends within the text.
        obtain ⟨rest, split⟩ := cut.place
        have exceeds := Nat.lt_of_lt_of_le cut.exceeds (Nat.min_le_left _ _)
        rw [Encodable.text, split] at fits
        simp only [Encoder.length, List.size_toArray, List.length_nil, List.flatten_append, List.flatten_cons,
          List.length_append] at fits exceeds
        omega
      · exact absurd cut.exceeds (Nat.not_lt.mpr (Nat.le_trans (Nat.min_le_right _ _) unlimited))

mutual
/-- The second thing is the first one with any number of parts, at any depth, encoded beforehand, each of them without a
limit: nothing, all of it, or parts of what it contains. A value of which parts are to be replaced is taken apart for
it. The entries of a map from texts are those it holds, whatever it held before. -/
inductive Spliced : Encodable → Encodable → Prop
  | kept (source : Encodable) : Spliced source source
  | replaced {source : Encodable} {encoded : Bytes} : encode source maxLength = .ok encoded → Spliced source (.raw encoded)
  | list {items others : List Encodable} : SplicedItems items others → Spliced (.list items) (.list others)
  | dict {entries others : List (Bytes × Encodable)} : SplicedEntries entries others → Spliced (.dict entries) (.dict others)
  | listOfValues {items : List Value} {others : List Encodable} :
      SplicedItems (items.map .value) others → Spliced (.value (.list items)) (.list others)
  | dictOfValues {entries : Dict} {others : List (Bytes × Encodable)} : entries.Ascending →
      SplicedEntries (entries.map fun e => (e.1, .value e.2)) others → Spliced (.value (.dict entries)) (.dict others)
  | ofMap {inserted others : List (String × Encodable)} :
      SplicedEntries (inserted.map fun e => (utf8 e.1, e.2)) (others.map fun e => (utf8 e.1, e.2)) →
      Spliced (.ofMap inserted) (.ofMap others)
/-- Item by item. -/
inductive SplicedItems : List Encodable → List Encodable → Prop
  | nil : SplicedItems [] []
  | cons {item other : Encodable} {items others : List Encodable} : Spliced item other → SplicedItems items others →
      SplicedItems (item :: items) (other :: others)
/-- Entry by entry, under the same keys. -/
inductive SplicedEntries : List (Bytes × Encodable) → List (Bytes × Encodable) → Prop
  | nil : SplicedEntries [] []
  | cons {key : Bytes} {item other : Encodable} {entries others : List (Bytes × Encodable)} : Spliced item other →
      SplicedEntries entries others → SplicedEntries ((key, item) :: entries) ((key, other) :: others)
end

namespace Encodable

private theorem piecesItems_values (items : List Value) : piecesItems (items.map .value) = Value.piecesItems items := by
  induction items with
  | nil => rfl
  | cons item items ih => rw [List.map_cons, piecesItems, ih, Value.piecesItems, pieces]

/-- A list of values is written as the list of the things these are. -/
theorem text_listOfValues (items : List Value) : (value (.list items)).text = (list (items.map .value)).text := by
  rw [text, text, pieces, pieces, piecesItems_values, Value.pieces]

/-- A dictionary of values is in order already. -/
theorem text_dictOfValues {entries : Dict} (ascending : entries.Ascending) :
    (value (.dict entries)).text = (dict (entries.map fun e => (e.1, .value e.2))).text := by
  have sameKeys : Dictionary.Ascending (entries.map fun e => (e.1, (value e.2).text)) := List.pairwise_map.mpr ascending
  have joined : (Value.piecesEntries entries).flatten = entries.flatMap fun e => spellBytes e.1 ++ (value e.2).text := by
    clear ascending sameKeys
    induction entries with
    | nil => rfl
    | cons entry entries ih =>
      rw [Value.piecesEntries, List.flatten_cons, List.flatten_append, ih, List.flatMap_cons, List.append_assoc, text, pieces]
  rw [text_dict, List.map_map, Function.comp_def, Dictionary.mergeSort_eq_self sameKeys, List.flatMap_map, ← joined, text,
    pieces, Value.pieces, List.flatten_cons, List.flatten_append, List.flatten_singleton, List.append_assoc]

end Encodable

namespace Dictionary

variable {α β : Type}

/-- Where an entry goes does not depend on what stands under its key. -/
theorem map_insert (f : α → β) (key : Bytes) (value : α) (dict : Dictionary α) :
    (insert key value dict).map (fun e => (e.1, f e.2)) = insert key (f value) (dict.map fun e => (e.1, f e.2)) := by
  induction dict with
  | nil => rfl
  | cons entry rest ih =>
    rw [insert, List.map_cons, insert]
    split_ifs
    · rfl
    · rfl
    · rw [List.map_cons, ih]

private theorem map_ofEntries (f : α → β) (entries : List (Bytes × α)) :
    (ofEntries entries).map (fun e => (e.1, f e.2)) = ofEntries (entries.map fun e => (e.1, f e.2)) := by
  induction entries using List.reverseRecOn with
  | nil => rfl
  | append_singleton init last ih =>
    rw [ofEntries_concat, map_insert, ih, List.map_append, List.map_singleton, ofEntries_concat]

end Dictionary

private theorem Encodable.text_ofMap (inserted : List (String × Encodable)) : (ofMap inserted).text =
    [100] ++ ((Dictionary.ofEntries ((inserted.map fun e => (utf8 e.1, e.2)).map fun e => (e.1, e.2.text))).mergeSort
      fun a b => a.1 ≤ b.1).flatMap (fun e => spellBytes e.1 ++ e.2) ++ [101] := by
  rw [← Dictionary.map_ofEntries, ← text_dict]
  rfl

mutual
/-- Splicing leaves the text of the whole as it was. -/
theorem Spliced.text_eq {source target : Encodable} : Spliced source target → target.text = source.text
  | .kept _ => rfl
  | .replaced encoded => (Encodable.text_raw _).trans (encode_eq_ok_iff.mp encoded).2.symm
  | .list items => by rw [Encodable.text_list, Encodable.text_list, items.map_text]
  | .dict entries => by rw [Encodable.text_dict, Encodable.text_dict, entries.map_text]
  | .listOfValues items => by rw [Encodable.text_listOfValues, Encodable.text_list, Encodable.text_list, items.map_text]
  | .dictOfValues ascending entries => by
    rw [Encodable.text_dictOfValues ascending, Encodable.text_dict, Encodable.text_dict, entries.map_text]
  | .ofMap entries => by rw [Encodable.text_ofMap, Encodable.text_ofMap, entries.map_text]
theorem SplicedItems.map_text {items others : List Encodable} : SplicedItems items others →
    others.map Encodable.text = items.map Encodable.text
  | .nil => rfl
  | .cons item items => by rw [List.map_cons, List.map_cons, item.text_eq, items.map_text]
theorem SplicedEntries.map_text {entries others : List (Bytes × Encodable)} : SplicedEntries entries others →
    (others.map fun e => (e.1, e.2.text)) = entries.map fun e => (e.1, e.2.text)
  | .nil => rfl
  | .cons item entries => by rw [List.map_cons, List.map_cons, item.text_eq, entries.map_text]
end

/-- Splicing does not show. Whatever parts are replaced by their own encodings, the unlimited encoding of the whole is the same,
and the same capacities suffice for it, with the same outcome. -/
theorem encode_of_spliced {source target : Encodable} (spliced : Spliced source target) :
    encode target maxLength = encode source maxLength ∧
      ∀ capacity bytes, encode target capacity = .ok bytes ↔ encode source capacity = .ok bytes := by
  have alike : ∀ capacity bytes, encode target capacity = .ok bytes ↔ encode source capacity = .ok bytes := by
    intro capacity bytes
    rw [encode_eq_ok_iff, encode_eq_ok_iff, spliced.text_eq]
  exact ⟨((alike maxLength source.text).mpr (encode_unlimited source)).trans (encode_unlimited source).symm, alike⟩

/-- A list of a value and of a map, whose entries are inserted out of order. -/
def nestedParts : Encodable := .list [.value (.list [.int 7]), .ofMap [("b", .int 1), ("a", .bytes [120])]]

/-- The item of the value and the entry under the lesser key, both encoded beforehand. -/
def nestedPartsSpliced : Encodable :=
  .list [.list [.raw [105, 55, 101]], .ofMap [("b", .int 1), ("a", .raw [49, 58, 120])]]

/-- Twenty-one bytes are enough for the one as for the other, and twenty are not. -/
theorem nestedParts_spliced : Spliced nestedParts nestedPartsSpliced ∧
    encode nestedPartsSpliced maxLength = encode nestedParts maxLength ∧
    (∃ bytes, encode nestedPartsSpliced 21 = .ok bytes) ∧ ∀ bytes, encode nestedPartsSpliced 20 ≠ .ok bytes := by
  have number : encode (.value (.int 7)) maxLength = .ok [105, 55, 101] := encode_value (.int 7)
  have letter : encode (.bytes [120]) maxLength = .ok [49, 58, 120] := encode_unlimited (.bytes [120])
  have spliced : Spliced nestedParts nestedPartsSpliced :=
    .list (.cons (.listOfValues (.cons (.replaced number) .nil))
      (.cons (.ofMap (.cons (.kept _) (.cons (.replaced letter) .nil))) .nil))
  have text : nestedParts.text =
      [108, 108, 105, 55, 101, 101, 100, 49, 58, 97, 49, 58, 120, 49, 58, 98, 105, 49, 101, 101, 101] := by
    have ascending : Dictionary.Ascending [(utf8 "a", spellBytes [120]), (utf8 "b", (Value.int 1).spell)] := by decide
    rw [nestedParts, Encodable.text_list, List.map_cons, List.map_cons, Encodable.text_ofMap]
    rw [show Dictionary.ofEntries _ = [(utf8 "a", spellBytes [120]), (utf8 "b", (Value.int 1).spell)] from rfl,
      Dictionary.mergeSort_eq_self ascending]
    rfl
  obtain ⟨unlimited, alike⟩ := encode_of_spliced spliced
  refine ⟨spliced, unlimited, ⟨nestedParts.text, ?_⟩, ?_⟩
  · rw [alike, encode_eq_ok_iff, text]
    decide
  · intro bytes
    rw [Ne, alike, encode_eq_ok_iff, text]
    simp [maxLength]

end PeerSubstrate.Bencode
