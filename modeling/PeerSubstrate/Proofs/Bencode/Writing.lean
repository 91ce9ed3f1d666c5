import PeerSubstrate.Bencode.Encoding
import PeerSubstrate.Proofs.Bencode.Grammar

/-!
# The pieces of a value

Writing a value comes down to writing the primitive pieces of it in a row (`Value.write_eq`), and the
pieces joined are its text (`Value.flatten_pieces`). Without a limit no piece is refused, so that the
text of a value is what its encoding yields (`encode_value`).
-/

namespace PeerSubstrate.Bencode

theorem Encoder.append_nil (e : Encoder) : e.append [] = e := by
  simp [append]

theorem Encoder.append_append (e : Encoder) (one two : Bytes) : (e.append one).append two = e.append (one ++ two) := by
  have joined : e.buffer ++ one ++ two = e.buffer ++ (one ++ two) := by
    apply Array.toList_inj.mp
    simp
  rw [append, append, append, joined]

namespace Write

/-- Pieces in a row, up to the first that does not fit. -/
def pieces (texts : List Bytes) : Write := all (texts.map raw)

theorem andThen_assoc (one two three : Write) : (one.andThen two).andThen three = one.andThen (two.andThen three) := by
  funext e
  unfold andThen
  rcases one e with ⟨_ | _, _⟩ <;> rfl

theorem pieces_cons (text : Bytes) (texts : List Bytes) : pieces (text :: texts) = (raw text).andThen (pieces texts) :=
  rfl

theorem pieces_append (one two : List Bytes) : pieces (one ++ two) = (pieces one).andThen (pieces two) := by
  induction one with
  | nil => rfl
  | cons text one ih => rw [List.cons_append, pieces_cons, ih, pieces_cons, andThen_assoc]

theorem pieces_singleton (text : Bytes) : pieces [text] = raw text := by
  funext e
  rw [pieces_cons, andThen]
  split
  · next done => rw [done]; rfl
  · next failed => rw [failed]

theorem all_cons (write : Write) (writes : List Write) : all (write :: writes) = write.andThen (all writes) := rfl

/-- Without a limit every piece is written. -/
theorem pieces_unlimited (texts : List Bytes) : ∀ {e : Encoder}, e.capacity = maxLength →
    pieces texts e = (.ok (), e.append texts.flatten) := by
  induction texts with
  | nil =>
    intro e _
    rw [List.flatten_nil, Encoder.append_nil]
    rfl
  | cons text texts ih =>
    intro e unlimited
    have written : raw text e = (.ok (), e.append text) := by
      rw [raw, piece]
      simp only [unlimited]
      rw [if_neg (by omega)]
    rw [pieces_cons, andThen, written, List.flatten_cons, ← Encoder.append_append]
    exact ih (by rw [Encoder.capacity_append, unlimited])

end Write

namespace Value

mutual
/-- The primitive pieces of a value. -/
def pieces : Value → List Bytes
  | .int number => [(Value.int number).spell]
  | .bytes content => [spellBytes content]
  | .list items => [108] :: (piecesItems items ++ [[101]])
  | .dict entries => [100] :: (piecesEntries entries ++ [[101]])
def piecesItems : List Value → List Bytes
  | [] => []
  | item :: items => item.pieces ++ piecesItems items
def piecesEntries : List (Bytes × Value) → List Bytes
  | [] => []
  | (key, value) :: entries => spellBytes key :: (value.pieces ++ piecesEntries entries)
end

mutual
theorem flatten_pieces : ∀ value : Value, value.pieces.flatten = value.spell
  | .int _ => List.flatten_singleton
  | .bytes _ => List.flatten_singleton
  | .list items => by
    rw [pieces, List.flatten_cons, List.flatten_append, flatten_piecesItems items, List.flatten_singleton]
    rfl
  | .dict entries => by
    rw [pieces, List.flatten_cons, List.flatten_append, flatten_piecesEntries entries, List.flatten_singleton]
    rfl
theorem flatten_piecesItems : ∀ items : List Value, (piecesItems items).flatten = spellItems items
  | [] => rfl
  | item :: items => by
    rw [piecesItems, List.flatten_append, flatten_pieces item, flatten_piecesItems items, spellItems]
theorem flatten_piecesEntries : ∀ entries : List (Bytes × Value), (piecesEntries entries).flatten = spellEntries entries
  | [] => rfl
  | (key, value) :: entries => by
    rw [piecesEntries, List.flatten_cons, List.flatten_append, flatten_pieces value, flatten_piecesEntries entries,
      spellEntries]
end

mutual
/-- A value is written piece by piece. -/
theorem write_eq : ∀ value : Value, value.write = Write.pieces value.pieces
  | .int _ => (Write.pieces_singleton _).symm
  | .bytes _ => (Write.pieces_singleton _).symm
  | .list items => by
    rw [write, Write.list, writeItems_eq items, pieces, Write.pieces_cons, Write.pieces_append, Write.pieces_singleton]
  | .dict entries => by
    rw [write, Write.entries, writeEntries_eq entries, pieces, Write.pieces_cons, Write.pieces_append,
      Write.pieces_singleton]
theorem writeItems_eq : ∀ items : List Value, Write.all (writeItems items) = Write.pieces (piecesItems items)
  | [] => rfl
  | item :: items => by
    rw [writeItems, Write.all_cons, write_eq item, writeItems_eq items, piecesItems, Write.pieces_append]
theorem writeEntries_eq : ∀ entries : List (Bytes × Value),
    Write.all ((writeEntries entries).map fun e => (Write.bytes e.1).andThen e.2) = Write.pieces (piecesEntries entries)
  | [] => rfl
  | (key, value) :: entries => by
    rw [writeEntries, List.map_cons, Write.all_cons, write_eq value, writeEntries_eq entries, piecesEntries,
      Write.pieces_cons, Write.pieces_append, Write.andThen_assoc]
    rfl
end

end Value

/-- Without a limit a value is encoded as its text. -/
theorem encode_value (value : Value) : encode (.value value) maxLength = .ok value.spell := by
  have unlimited : ({ capacity := maxLength } : Encoder).capacity = maxLength := rfl
  have written := Write.pieces_unlimited value.pieces unlimited
  rw [encode, Encodable.write, Value.write_eq, written, Value.flatten_pieces]
  simp [Encoder.written, Encoder.append]

end PeerSubstrate.Bencode
