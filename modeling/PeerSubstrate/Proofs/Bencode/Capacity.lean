import Mathlib.Data.List.Perm.Basic
import PeerSubstrate.Proofs.Bencode.Dictionary
import PeerSubstrate.Proofs.Bencode.Writing

/-!
# Capacity

Whatever can be encoded is written as a row of primitive pieces (`Encodable.write_eq`). A row that fits is
written in full; of any other row the first piece that ends beyond the capacity is refused, and no piece
ends beyond it earlier (`encode_exact`).
-/

namespace PeerSubstrate.Bencode

namespace Write

/-- Where the pieces of a row end, if the first one begins at `start`. -/
def ends (start : Nat) : List Bytes → List Nat
  | [] => []
  | text :: texts => (start + text.length) :: ends (start + text.length) texts

private theorem le_of_mem_ends {texts : List Bytes} : ∀ {start stop : Nat}, stop ∈ ends start texts →
    start ≤ stop ∧ stop ≤ start + texts.flatten.length := by
  induction texts with
  | nil =>
    intro start stop member
    simp [ends] at member
  | cons text texts ih =>
    intro start stop member
    rw [List.flatten_cons, List.length_append]
    rcases List.mem_cons.mp member with rfl | later
    · omega
    · have inside := ih later
      omega

theorem raw_of_fits {e : Encoder} {text : Bytes} (fits : e.length + text.length ≤ e.capacity) :
    raw text e = (.ok (), e.append text) := by
  rw [raw, piece, if_neg (by omega)]

private theorem raw_of_exceeds {e : Encoder} {text : Bytes} (exceeds : e.capacity < e.length + text.length)
    (small : e.length + text.length ≤ maxLength) :
    raw text e = (.error (.capacityExceeded (e.length + text.length) e.capacity), e) := by
  rw [raw, piece, Nat.min_eq_left small, if_pos exceeds]

private theorem pieces_of_fits {texts : List Bytes} : ∀ {e : Encoder}, e.length + texts.flatten.length ≤ e.capacity →
    pieces texts e = (.ok (), e.append texts.flatten) := by
  induction texts with
  | nil =>
    intro e _
    rw [List.flatten_nil, Encoder.append_nil]
    rfl
  | cons text texts ih =>
    intro e fits
    rw [List.flatten_cons, List.length_append] at fits
    have others : (e.append text).length + texts.flatten.length ≤ (e.append text).capacity := by
      rw [Encoder.length_append, Encoder.capacity_append]
      omega
    rw [pieces_cons, andThen, raw_of_fits (by omega), List.flatten_cons, ← Encoder.append_append]
    exact ih others

/-- The row is refused at `required`, and no piece of it ends beyond the capacity before that. -/
def RefusedAt (required : Nat) (texts : List Bytes) (e : Encoder) : Prop :=
  (pieces texts e).1 = .error (.capacityExceeded required e.capacity) ∧ e.capacity < required ∧
    ∀ stop ∈ ends e.length texts, e.capacity < stop → required ≤ stop

private theorem pieces_of_exceeds {texts : List Bytes} : ∀ {e : Encoder}, e.length ≤ e.capacity →
    e.capacity < e.length + texts.flatten.length → e.length + texts.flatten.length ≤ maxLength →
    ∃ required ∈ ends e.length texts, RefusedAt required texts e := by
  induction texts with
  | nil =>
    intro e room exceeds _
    simp only [List.flatten_nil, List.length_nil] at exceeds
    omega
  | cons text texts ih =>
    intro e room exceeds small
    rw [List.flatten_cons, List.length_append] at exceeds small
    by_cases fits : e.length + text.length ≤ e.capacity
    · -- The first piece is written, and the others go on behind it.
      obtain ⟨required, member, refused, beyond, earliest⟩ := @ih (e.append text)
        (by rw [Encoder.length_append, Encoder.capacity_append]; exact fits)
        (by rw [Encoder.length_append, Encoder.capacity_append]; omega)
        (by rw [Encoder.length_append]; omega)
      rw [Encoder.length_append] at member earliest
      rw [Encoder.capacity_append] at refused beyond earliest
      refine ⟨required, List.mem_cons_of_mem _ member, ?_, beyond, ?_⟩
      · rw [pieces_cons, andThen, raw_of_fits fits]
        exact refused
      · intro stop isEnd exceeding
        rcases List.mem_cons.mp isEnd with rfl | later
        · omega
        · exact earliest stop later exceeding
    · have exceeding : e.capacity < e.length + text.length := Nat.lt_of_not_le fits
      refine ⟨e.length + text.length, List.mem_cons_self .., ?_, exceeding, ?_⟩
      · rw [pieces_cons, andThen, raw_of_exceeds exceeding (by omega)]
      · intro stop isEnd _
        rcases List.mem_cons.mp isEnd with rfl | later
        · exact Nat.le_refl _
        · exact (le_of_mem_ends later).1

private theorem all_entries (entries : List (Bytes × List Bytes)) :
    all (entries.map fun e => (bytes e.1).andThen (pieces e.2)) =
      pieces (entries.flatMap fun e => spellBytes e.1 :: e.2) := by
  induction entries with
  | nil => rfl
  | cons entry entries ih =>
    rw [List.map_cons, all_cons, ih, List.flatMap_cons, List.cons_append, pieces_cons, pieces_append, andThen_assoc]
    rfl

/-- Entries whose values are rows of pieces are themselves written as a row, whatever the capacity: each key in front of the
pieces of its value, in ascending order of the keys. -/
theorem dict_pieces (given : List (Bytes × List Bytes)) : dict (given.map fun e => (e.1, pieces e.2)) =
    pieces ([100] :: ((given.mergeSort fun a b => a.1 ≤ b.1).flatMap (fun e => spellBytes e.1 :: e.2) ++ [[101]])) := by
  have sorted := @List.map_mergeSort (Bytes × List Bytes) (Bytes × Write) (fun a b => a.1 ≤ b.1) (fun a b => a.1 ≤ b.1)
    (fun e => (e.1, pieces e.2)) given (fun _ _ _ _ => rfl)
  rw [dict, ← sorted, entries, List.map_map, pieces_cons, pieces_append, pieces_singleton, ← all_entries]
  rfl

end Write

namespace Encodable

mutual
/-- The primitive pieces in the order in which they are written: integers, byte strings, spans that are
already encoded, and the single markers around a container. -/
def pieces : Encodable → List Bytes
  | .int number => [(Value.int number).spell]
  | .bytes content => [spellBytes content]
  | .raw encoded => [encoded]
  | .value tree => tree.pieces
  | .list items => [108] :: (piecesItems items ++ [[101]])
  | .dict entries =>
    [100] :: (((piecesEntries entries).mergeSort fun a b => a.1 ≤ b.1).flatMap (fun e => spellBytes e.1 :: e.2) ++ [[101]])
def piecesItems : List Encodable → List Bytes
  | [] => []
  | item :: items => item.pieces ++ piecesItems items
/-- Each key with the pieces of what stands under it. -/
def piecesEntries : List (Bytes × Encodable) → List (Bytes × List Bytes)
  | [] => []
  | (key, item) :: entries => (key, item.pieces) :: piecesEntries entries
end

mutual
theorem write_eq : ∀ source : Encodable, source.write = Write.pieces source.pieces
  | .int _ => (Write.pieces_singleton _).symm
  | .bytes _ => (Write.pieces_singleton _).symm
  | .raw _ => (Write.pieces_singleton _).symm
  | .value tree => tree.write_eq
  | .list items => by
    rw [write, Write.list, writeItems_eq items, pieces, Write.pieces_cons, Write.pieces_append, Write.pieces_singleton]
  | .dict entries => by rw [write, writeEntries_eq entries, Write.dict_pieces, pieces]
theorem writeItems_eq : ∀ items : List Encodable, Write.all (writeItems items) = Write.pieces (piecesItems items)
  | [] => rfl
  | item :: items => by
    rw [writeItems, Write.all_cons, write_eq item, writeItems_eq items, piecesItems, Write.pieces_append]
theorem writeEntries_eq : ∀ entries : List (Bytes × Encodable),
    writeEntries entries = (piecesEntries entries).map fun e => (e.1, Write.pieces e.2)
  | [] => rfl
  | (key, item) :: entries => by
    rw [writeEntries, write_eq item, writeEntries_eq entries, piecesEntries, List.map_cons]
end

/-- The pieces joined. -/
def text (source : Encodable) : Bytes := source.pieces.flatten

/-- Where the primitive pieces end. -/
def ends (source : Encodable) : List Nat := Write.ends 0 source.pieces

private theorem flatten_piecesItems (items : List Encodable) : (piecesItems items).flatten = (items.map text).flatten := by
  induction items with
  | nil => rfl
  | cons item items ih => rw [piecesItems, List.flatten_append, ih, List.map_cons, List.flatten_cons, text]

theorem text_list (items : List Encodable) : (list items).text = [108] ++ (items.map text).flatten ++ [101] := by
  rw [text, pieces, List.flatten_cons, List.flatten_append, flatten_piecesItems, List.flatten_singleton, List.append_assoc]

private theorem map_piecesEntries (entries : List (Bytes × Encodable)) :
    (piecesEntries entries).map (fun e => (e.1, e.2.flatten)) = entries.map fun e => (e.1, e.2.text) := by
  induction entries with
  | nil => rfl
  | cons entry entries ih => rw [piecesEntries, List.map_cons, List.map_cons, ih, text]

/-- The entries of a dictionary are ordered by their keys, whatever stands under these. -/
theorem text_dict (entries : List (Bytes × Encodable)) : (dict entries).text =
    [100] ++ ((entries.map fun e => (e.1, e.2.text)).mergeSort fun a b => a.1 ≤ b.1).flatMap
      (fun e => spellBytes e.1 ++ e.2) ++ [101] := by
  have sorted := @List.map_mergeSort (Bytes × List Bytes) (Bytes × Bytes) (fun a b => a.1 ≤ b.1) (fun a b => a.1 ≤ b.1)
    (fun e => (e.1, e.2.flatten)) (piecesEntries entries) (fun _ _ _ _ => rfl)
  rw [map_piecesEntries] at sorted
  rw [text, pieces, List.flatten_cons, List.flatten_append, List.flatten_singleton, ← sorted, List.flatMap_map,
    List.append_assoc, List.flatMap_def, List.flatMap_def, List.flatten_flatten, List.map_map]
  rfl

theorem text_raw (encoded : Bytes) : (raw encoded).text = encoded := List.flatten_singleton

end Encodable

theorem encode_of_written {source : Encodable} {capacity : Nat}
    (written : Write.pieces source.pieces { capacity } = (.ok (), ({ capacity } : Encoder).append source.pieces.flatten)) :
    encode source capacity = .ok source.text := by
  rw [encode, source.write_eq, written]
  simp [Encoder.append, Encoder.written, Encodable.text]

theorem encode_unlimited (source : Encodable) : encode source maxLength = .ok source.text := by
  have unlimited : ({ capacity := maxLength } : Encoder).capacity = maxLength := rfl
  exact encode_of_written (Write.pieces_unlimited source.pieces unlimited)

theorem encode_of_fits {source : Encodable} {capacity : Nat} (fits : source.text.length ≤ capacity) :
    encode source capacity = .ok source.text := by
  have room : ({ capacity } : Encoder).length + source.pieces.flatten.length ≤ capacity := by
    rw [show ({ capacity } : Encoder).length = 0 from rfl, Nat.zero_add]
    exact fits
  exact encode_of_written (Write.pieces_of_fits room)

theorem encode_of_exceeds {source : Encodable} {capacity : Nat} (exceeds : capacity < source.text.length)
    (small : source.text.length < 2 ^ 64) : ∃ required ∈ source.ends,
      encode source capacity = .error (.capacityExceeded required capacity) ∧ capacity < required ∧
      required ≤ source.text.length ∧ ∀ stop ∈ source.ends, capacity < stop → required ≤ stop := by
  have empty : ({ capacity } : Encoder).length = 0 := rfl
  have beyondAll : capacity < ({ capacity } : Encoder).length + source.pieces.flatten.length := by
    rw [empty, Nat.zero_add]
    exact exceeds
  have bounded : ({ capacity } : Encoder).length + source.pieces.flatten.length ≤ maxLength := by
    rw [empty, Nat.zero_add, maxLength, UInt64.size]
    exact Nat.le_sub_one_of_lt small
  obtain ⟨required, member, refused, beyond, earliest⟩ := Write.pieces_of_exceeds (Nat.zero_le _) beyondAll bounded
  have inside := (Write.le_of_mem_ends member).2
  rw [empty, Nat.zero_add] at inside
  refine ⟨required, member, ?_, beyond, inside, earliest⟩
  rw [encode, source.write_eq]
  split
  · next written =>
    rw [written] at refused
    cases refused
  · next refusal =>
    rw [refusal] at refused
    exact congrArg Except.error (Except.error.inj refused)

/-- The capacity is exact. Without a limit the pieces come out joined; under a capacity that holds them so they
do as well, and under any other the failure reports the earliest end of a piece beyond the capacity. -/
theorem encode_exact (source : Encodable) : encode source maxLength = .ok source.text ∧
    (source.text.length < 2 ^ 64 → ∀ capacity,
      (source.text.length ≤ capacity → encode source capacity = .ok source.text) ∧
      (capacity < source.text.length → ∃ required ∈ source.ends,
        encode source capacity = .error (.capacityExceeded required capacity) ∧
        capacity < required ∧ required ≤ source.text.length ∧
        ∀ stop ∈ source.ends, capacity < stop → required ≤ stop)) :=
  ⟨encode_unlimited source, fun small _ => ⟨encode_of_fits, fun exceeds => encode_of_exceeds exceeds small⟩⟩

/-- Keys out of order, and a span that is already encoded under the greater one. -/
def twoEntries : Encodable := .dict [([98], .raw [105, 49, 101]), ([97], .bytes [120, 121])]

/-- There is room for the entry of the lesser key and for one byte more, and the greater key is refused. -/
theorem greater_key_refused : twoEntries.text.length < 2 ^ 64 ∧ 9 < twoEntries.text.length ∧
    encode twoEntries 9 = .error (.capacityExceeded 11 9) := by
  have pieces : twoEntries.pieces = [[100], [49, 58, 97], [50, 58, 120, 121], [49, 58, 98], [105, 49, 101], [101]] := by
    have sorted : (Encodable.piecesEntries [([98], .raw [105, 49, 101]), ([97], .bytes [120, 121])]).mergeSort
        (fun a b => a.1 ≤ b.1) = [([97], [[50, 58, 120, 121]]), ([98], [[105, 49, 101]])] := by
      rw [← Dictionary.ofEntries_eq_mergeSort (by decide)]
      rfl
    rw [twoEntries, Encodable.pieces, sorted]
    rfl
  have text : twoEntries.text = [100, 49, 58, 97, 50, 58, 120, 121, 49, 58, 98, 105, 49, 101, 101] := by
    rw [Encodable.text, pieces]
    rfl
  have ends : twoEntries.ends = [1, 4, 8, 11, 14, 15] := by
    rw [Encodable.ends, pieces]
    rfl
  have small : twoEntries.text.length < 2 ^ 64 := by rw [text]; decide
  have exceeds : 9 < twoEntries.text.length := by rw [text]; decide
  obtain ⟨required, member, refused, beyond, -, earliest⟩ := ((encode_exact twoEntries).2 small 9).2 exceeds
  have least := earliest 11 (by rw [ends]; decide) (by decide)
  have isRequired : required = 11 := by
    rw [ends] at member
    simp only [List.mem_cons, List.not_mem_nil, or_false] at member
    omega
  exact ⟨small, exceeds, isRequired ▸ refused⟩

end PeerSubstrate.Bencode
