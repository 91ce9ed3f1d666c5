import PeerSubstrate.Proofs.Bencode.Capacity

/-!
# Going on after a failure

An encoder that has refused something can still be written to. Whatever an operation is, it comes down to a row of primitive
pieces, and it leaves behind those of them that come before the first one that does not fit, or all of them
(`Write.pieces_cases`). So nothing is ever taken back, no length is beyond the capacity, and the next operation goes on behind
the last piece that was written (`operations_cut`).
-/

namespace PeerSubstrate.Bencode

namespace Write

variable {text : Bytes} {texts : List Bytes} {e : Encoder} {failure : EncodeError}

theorem pieces_of_written (written : raw text e = (.ok (), e.append text)) :
    pieces (text :: texts) e = pieces texts (e.append text) := by
  rw [pieces_cons, andThen, written]

theorem pieces_of_refused (refused : raw text e = (.error failure, e)) : pieces (text :: texts) e = (.error failure, e) := by
  rw [pieces_cons, andThen, refused]

theorem raw_cases (text : Bytes) (e : Encoder) :
    (min (e.length + text.length) maxLength ≤ e.capacity ∧ raw text e = (.ok (), e.append text)) ∨
      (e.capacity < min (e.length + text.length) maxLength ∧
        raw text e = (.error (.capacityExceeded (min (e.length + text.length) maxLength) e.capacity), e)) := by
  rw [raw, piece]
  split
  case isTrue exceeds => exact .inr ⟨exceeds, rfl⟩
  case isFalse fits => exact .inl ⟨Nat.le_of_not_lt fits, rfl⟩

/-- The first piece that does not fit is refused, and those before it have been written. -/
structure Cut (texts written : List Bytes) (refused : Bytes) (e : Encoder) : Prop where
  place : ∃ rest, texts = written ++ refused :: rest
  exceeds : e.capacity < min (e.length + written.flatten.length + refused.length) maxLength
  result : pieces texts e =
    (.error (.capacityExceeded (min (e.length + written.flatten.length + refused.length) maxLength) e.capacity),
      e.append written.flatten)

/-- All pieces are written, or those before the first that does not fit. -/
theorem pieces_cases (texts : List Bytes) (e : Encoder) :
    pieces texts e = (.ok (), e.append texts.flatten) ∨ ∃ written refused, Cut texts written refused e := by
  induction texts generalizing e with
  | nil => exact .inl (by rw [List.flatten_nil, Encoder.append_nil]; rfl)
  | cons text texts ih =>
    obtain ⟨-, written⟩ | ⟨exceeds, refused⟩ := raw_cases text e
    · obtain all | ⟨others, refused, ⟨rest, split⟩, exceeds, result⟩ := ih (e.append text)
      · exact .inl (by rw [pieces_of_written written, all, Encoder.append_append, List.flatten_cons])
      · have length : (e.append text).length + others.flatten.length = e.length + (text :: others).flatten.length := by
          rw [Encoder.length_append, List.flatten_cons, List.length_append, Nat.add_assoc]
        rw [length] at exceeds result
        refine .inr ⟨text :: others, refused, ⟨rest, by rw [split, List.cons_append]⟩, exceeds, ?_⟩
        rw [pieces_of_written written, result, Encoder.append_append, List.flatten_cons, Encoder.capacity_append]
    · refine .inr ⟨[], text, ⟨texts, rfl⟩, exceeds, ?_⟩
      rw [List.flatten_nil, Encoder.append_nil]
      exact pieces_of_refused refused

/-- A row of pieces only adds to what has been written. -/
theorem exists_append_pieces (texts : List Bytes) (e : Encoder) : ∃ added, (pieces texts e).2 = e.append added := by
  obtain all | ⟨written, refused, cut⟩ := pieces_cases texts e
  · exact ⟨texts.flatten, by rw [all]⟩
  · exact ⟨written.flatten, by rw [cut.result]⟩

/-- The capacity bounds what is written, as long as lengths can be told. -/
theorem length_pieces_le (room : e.length ≤ e.capacity) (small : (pieces texts e).2.length ≤ maxLength) :
    (pieces texts e).2.length ≤ e.capacity := by
  induction texts generalizing e with
  | nil => exact room
  | cons text texts ih =>
    obtain ⟨fits, written⟩ | ⟨-, refused⟩ := raw_cases text e
    · rw [pieces_of_written written] at small ⊢
      obtain ⟨added, appended⟩ := exists_append_pieces texts (e.append text)
      have grown : e.length + text.length ≤ (pieces texts (e.append text)).2.length := by
        rw [appended, Encoder.length_append, Encoder.length_append]
        exact Nat.le_add_right _ _
      rw [Nat.min_eq_left (Nat.le_trans grown small)] at fits
      exact ih (by rw [Encoder.length_append]; exact fits) small
    · rw [pieces_of_refused refused]
      exact room

end Write

/-- The encoder after several operations, of which each one begins where the one before has left it, whether that failed or
not. -/
def Encoder.after (e : Encoder) (operations : List Encodable) : Encoder :=
  operations.foldl (fun e operation => (operation.write e).2) e

/-- What is written in one piece. -/
inductive Encodable.Primitive : Encodable → Prop
  | int (number : Int64) : Primitive (.int number)
  | bytes (text : Bytes) : Primitive (.bytes text)
  | raw (encoded : Bytes) : Primitive (.raw encoded)

section Operations

variable {e : Encoder} {operation : Encodable} {operations later : List Encodable}

private theorem Encoder.after_append (e : Encoder) (operations later : List Encodable) :
    e.after (operations ++ later) = (e.after operations).after later := List.foldl_append

/-- All that operations do is to add something. -/
theorem Encoder.exists_append_after (e : Encoder) (operations : List Encodable) :
    ∃ added, e.after operations = e.append added := by
  induction operations generalizing e with
  | nil => exact ⟨[], (append_nil e).symm⟩
  | cons operation operations ih =>
    obtain ⟨first, written⟩ := Write.exists_append_pieces operation.pieces e
    obtain ⟨others, added⟩ := ih ((operation.write e).2)
    refine ⟨first ++ others, ?_⟩
    rw [Encodable.write_eq, written, append_append] at added
    rw [after, List.foldl_cons, Encodable.write_eq, written]
    exact added

private theorem Encoder.capacity_after (e : Encoder) (operations : List Encodable) :
    (e.after operations).capacity = e.capacity := by
  obtain ⟨added, appended⟩ := e.exists_append_after operations
  rw [appended, capacity_append]

private theorem Encoder.length_le_after (e : Encoder) (operations : List Encodable) :
    e.length ≤ (e.after operations).length := by
  obtain ⟨added, appended⟩ := e.exists_append_after operations
  rw [appended, length_append]
  exact Nat.le_add_right _ _

private theorem Encoder.length_after_le (room : e.length ≤ e.capacity) (small : (e.after operations).length ≤ maxLength) :
    (e.after operations).length ≤ e.capacity := by
  induction operations generalizing e with
  | nil => exact room
  | cons operation operations ih =>
    obtain ⟨added, written⟩ := Write.exists_append_pieces operation.pieces e
    have first : e.after [operation] = e.append added := by
      rw [after, List.foldl_cons, List.foldl_nil, Encodable.write_eq, written]
    rw [← List.singleton_append, after_append, first] at small ⊢
    have within : (e.append added).length ≤ maxLength := Nat.le_trans ((e.append added).length_le_after operations) small
    have fits : (e.append added).length ≤ e.capacity := by
      rw [← written] at within ⊢
      exact Write.length_pieces_le room within
    exact ih fits small

/-- What an operation leaves behind: all of it, if that fits, or else the pieces before the first that does not. -/
theorem Encoder.write_cases (room : e.length ≤ e.capacity) (small : (operation.write e).2.length ≤ maxLength) :
    (e.length + operation.text.length ≤ e.capacity ∧ operation.write e = (.ok (), e.append operation.text)) ∨
      ∃ (written : List Bytes) (refused : Bytes) (rest : List Bytes), operation.pieces = written ++ refused :: rest ∧
        e.length + written.flatten.length ≤ e.capacity ∧
        e.capacity < e.length + written.flatten.length + refused.length ∧
        operation.write e =
          (.error (.capacityExceeded (min (e.length + written.flatten.length + refused.length) maxLength) e.capacity),
            e.append written.flatten) := by
  rw [Encodable.write_eq] at small ⊢
  have fits := Write.length_pieces_le room small
  obtain all | ⟨written, refused, ⟨rest, split⟩, exceeds, result⟩ := Write.pieces_cases operation.pieces e
  · rw [all, length_append] at fits
    exact .inl ⟨fits, all⟩
  · rw [result, length_append] at fits
    exact .inr ⟨written, refused, rest, split, fits, Nat.lt_of_lt_of_le exceeds (Nat.min_le_left _ _), result⟩

/-- One piece is written whole or not at all. -/
theorem Encodable.Primitive.write_cases (primitive : operation.Primitive) (e : Encoder) :
    operation.write e = (.ok (), e.append operation.text) ∨ ∃ failure, operation.write e = (.error failure, e) := by
  obtain ⟨text, one⟩ : ∃ text, operation.pieces = [text] := by
    cases primitive with
    | int number => exact ⟨_, rfl⟩
    | bytes text => exact ⟨_, rfl⟩
    | raw encoded => exact ⟨_, rfl⟩
  rw [Encodable.write_eq, Encodable.text, one, Write.pieces_singleton, List.flatten_singleton]
  obtain ⟨-, written⟩ | ⟨-, refused⟩ := Write.raw_cases text e
  · exact .inl written
  · exact .inr ⟨_, refused⟩

end Operations

/-- Any operations in turn, whether they fail or not, with outputs that are short enough to be told. The length is never beyond
the capacity, and what has been written stays at the front of all that is written later. An integer, a byte string or a span is
written whole or not at all. Any other operation leaves all of its text behind if that fits, and otherwise exactly the primitive
pieces of it before the first one that does not fit; from there the next operation goes on. -/
theorem operations_cut (capacity : Nat) :
    let after (operations : List Encodable) := ({ capacity } : Encoder).after operations
    (∀ operations, (after operations).length < 2 ^ 63 → (after operations).length ≤ capacity) ∧
    (∀ operations later, (after operations).written <+: (after (operations ++ later)).written) ∧
    (∀ operations operation, operation.Primitive → let e := after operations
      after (operations ++ [operation]) = e.append operation.text ∧ (operation.write e).1 = .ok () ∨
        after (operations ++ [operation]) = e ∧ ∃ failure, (operation.write e).1 = .error failure) ∧
    (∀ operations operation, (after (operations ++ [operation])).length < 2 ^ 63 → let e := after operations
      encode operation maxLength = .ok operation.text ∧
      ((e.length + operation.text.length ≤ capacity ∧ (operation.write e).1 = .ok () ∧
          after (operations ++ [operation]) = e.append operation.text) ∨
        ∃ (written : List Bytes) (refused : Bytes) (rest : List Bytes), operation.pieces = written ++ refused :: rest ∧
          e.length + written.flatten.length ≤ capacity ∧ capacity < e.length + written.flatten.length + refused.length ∧
          (operation.write e).1 =
            .error (.capacityExceeded (min (e.length + written.flatten.length + refused.length) maxLength) capacity) ∧
          after (operations ++ [operation]) = e.append written.flatten)) := by
  intro after
  have tellable : 2 ^ 63 ≤ maxLength := by decide
  have limit (operations : List Encodable) : (after operations).capacity = capacity := Encoder.capacity_after _ operations
  have next (operations : List Encodable) (operation : Encodable) :
      after (operations ++ [operation]) = (operation.write (after operations)).2 := Encoder.after_append _ operations [operation]
  have bounded (operations : List Encodable) (small : (after operations).length < 2 ^ 63) :
      (after operations).length ≤ capacity :=
    Encoder.length_after_le (Nat.zero_le _) (Nat.le_trans (Nat.le_of_lt small) tellable)
  refine ⟨bounded, fun operations later => ?_, fun operations operation primitive => ?_,
    fun operations operation small => ⟨encode_unlimited operation, ?_⟩⟩
  · obtain ⟨added, appended⟩ := (after operations).exists_append_after later
    have joined : after (operations ++ later) = (after operations).append added :=
      (Encoder.after_append _ operations later).trans appended
    rw [joined, Encoder.written_append]
    exact List.prefix_append _ _
  · obtain written | ⟨failure, refused⟩ := primitive.write_cases (after operations)
    · exact .inl ⟨by rw [next, written], by rw [written]⟩
    · exact .inr ⟨by rw [next, refused], failure, by rw [refused]⟩
  · have earlier : (after operations).length < 2 ^ 63 := by
      have grown := (after operations).length_le_after [operation]
      rw [← Encoder.after_append] at grown
      exact Nat.lt_of_le_of_lt grown small
    have room : (after operations).length ≤ (after operations).capacity := by
      rw [limit]
      exact bounded operations earlier
    rw [next] at small
    obtain ⟨fits, written⟩ | ⟨written, refused, rest, split, fits, exceeds, result⟩ :=
      Encoder.write_cases room (Nat.le_trans (Nat.le_of_lt small) tellable)
    · rw [limit] at fits
      exact .inl ⟨fits, by rw [written], by rw [next, written]⟩
    · rw [limit] at fits exceeds result
      exact .inr ⟨written, refused, rest, split, fits, exceeds, by rw [result], by rw [next, result]⟩

/-- A list of a number and a byte string. -/
def numberAndText : Encodable := .list [.int 1, .bytes [115, 112, 97, 109]]

/-- Of eight bytes the list takes four, its marker and its number, and is refused at its byte string. Two bytes more are then
written behind them, and no other number. -/
theorem list_cut_and_continued :
    let after (operations : List Encodable) := ({ capacity := 8 } : Encoder).after operations
    (after [numberAndText]).length < 2 ^ 63 ∧
      (∃ (written : List Bytes) (refused : Bytes) (rest : List Bytes), numberAndText.pieces = written ++ refused :: rest ∧
        written.flatten.length ≤ 8 ∧ 8 < written.flatten.length + refused.length ∧
        (after [numberAndText]).written = written.flatten) ∧
      (after [numberAndText]).written = [108, 105, 49, 101] ∧
      (after [numberAndText, .raw [120, 121], .int 5]).written = [108, 105, 49, 101, 120, 121] := by
  intro after
  have small : (after [numberAndText]).length < 2 ^ 63 := by decide
  obtain ⟨-, -, -, cut⟩ := operations_cut 8
  obtain ⟨-, ⟨fits, -, -⟩ | ⟨written, refused, rest, split, fits, exceeds, -, left⟩⟩ := cut [] numberAndText small
  · exact absurd fits (by decide)
  · have empty : (({ capacity := 8 } : Encoder).after []).length = 0 := rfl
    rw [empty, Nat.zero_add] at fits exceeds
    refine ⟨small, ⟨written, refused, rest, split, fits, exceeds, ?_⟩, by decide, by decide⟩
    exact (congrArg Encoder.written left).trans (Encoder.written_append _ _)

end PeerSubstrate.Bencode
