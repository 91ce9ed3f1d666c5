import PeerSubstrate.Proofs.Bencode.Faults

/-!
# Messages with more text behind them

A reader that does not run into the end of its input reads the same whatever stands behind (`Reading.followedBy`). So a
message stays one, an error stays the same error unless it complains of too little input, and a message that is cut off is
not a message any more (`decodeStart_extended`).
-/

namespace PeerSubstrate.Bencode

/-- The input is too short, and more of it may mend that. -/
def DecodeError.Kind.incomplete : DecodeError.Kind → Bool
  | .unexpectedEnd | .lengthOverrun _ _ => true
  | _ => false

/-- The outcome does not hang on the input's being no longer. -/
def Complete {α : Type} (result : Except DecodeError α) : Prop := ∀ e, result = .error e → e.kind.incomplete = false

private theorem not_complete_of_end {α : Type} {position : Nat} :
    ¬ Complete (.error ⟨position, .unexpectedEnd⟩ : Except DecodeError α) := by
  intro complete
  have impossible := complete _ rfl
  cases impossible

namespace Cursor

/-- The cursor with more text behind what is unread. -/
def followedBy (c : Cursor) (more : Bytes) : Cursor := { c with rest := c.rest ++ more }

/-- The same reading, with more text behind what it left unread. -/
def Reading.followedBy {α : Type} (reading : Reading α) (more : Bytes) : Reading α :=
  (reading.1, reading.2.followedBy more)

variable {stop : UInt8} {start : Nat} (more : Bytes)

private theorem digits_followed {rest : Bytes} : ∀ {first : Option UInt8} {total : Int} {position : Nat},
    Complete (digits stop start first total rest position).1 →
    digits stop start first total (rest ++ more) position =
      Reading.followedBy (digits stop start first total rest position) more := by
  induction rest with
  | nil =>
    intro first total position complete
    rw [digits] at complete
    exact absurd complete not_complete_of_end
  | cons byte rest ih =>
    intro first total position complete
    rw [List.cons_append, digits, digits]
    rw [digits] at complete
    split_ifs at complete ⊢ with atStop noDigit zero
    · rfl
    · rfl
    · rfl
    · simp only at complete ⊢
      split_ifs at complete ⊢ with overflow
      · rfl
      · exact ih complete

/-- Where digits have been read, their end stands. -/
theorem rest_of_digits {rest : Bytes} : ∀ {first : Option UInt8} {total : Int} {position : Nat} {result : Option Int}
    {after : Cursor}, digits stop start first total rest position = (.ok result, after) →
    ∃ behind, after.rest = stop :: behind := by
  induction rest with
  | nil =>
    intro first total position result after read
    simp [digits] at read
  | cons byte rest ih =>
    intro first total position result after read
    rw [digits] at read
    split_ifs at read with atStop noDigit zero
    · cases read
      exact ⟨rest, by rw [atStop]⟩
    · cases read
    · cases read
    · simp only at read
      split_ifs at read with overflow
      · cases read
      · exact ih read

private theorem unsignedNumber_followed {negative : Bool} {c : Cursor}
    (complete : Complete (unsignedNumber stop negative start c).1) :
    unsignedNumber stop negative start (c.followedBy more) =
      (unsignedNumber stop negative start c).followedBy more := by
  have wholeDigits : Complete (digits stop start none 0 c.rest c.position).1 := by
    intro e failed
    refine complete e ?_
    rw [unsignedNumber]
    split
    · next read =>
      rw [read] at failed
      exact congrArg Except.error (Except.error.inj failed)
    all_goals
      next read =>
        rw [read] at failed
        cases failed
  have same := digits_followed more wholeDigits
  rw [unsignedNumber, unsignedNumber]
  simp only [followedBy, same]
  generalize isReading : digits stop start none 0 c.rest c.position = reading
  obtain ⟨result, after⟩ := reading
  cases result with
  | error e => rfl
  | ok found =>
    cases found with
    | none => rfl
    | some total =>
      obtain ⟨behind, isRest⟩ := rest_of_digits isReading
      simp [Reading.followedBy, followedBy, isRest]

private theorem number_followed {signed : Bool} {c : Cursor} (complete : Complete (number stop signed c).1) :
    number stop signed (c.followedBy more) = (number stop signed c).followedBy more := by
  obtain ⟨rest, position⟩ := c
  cases signed with
  | false => exact unsignedNumber_followed more complete
  | true =>
    cases rest with
    | nil => exact absurd complete not_complete_of_end
    | cons byte rest =>
      simp only [number, followedBy, List.cons_append, if_true] at complete ⊢
      split_ifs at complete ⊢ with minus
      · exact unsignedNumber_followed more complete
      · exact unsignedNumber_followed more complete

private theorem byteString_followed {c : Cursor} (complete : Complete c.byteString.1) :
    (c.followedBy more).byteString = c.byteString.followedBy more := by
  have wholeLength : Complete (number 58 false c).1 := by
    intro e failed
    refine complete e ?_
    rw [byteString]
    split
    · next read =>
      rw [read] at failed
      exact congrArg Except.error (Except.error.inj failed)
    · next read =>
      rw [read] at failed
      cases failed
  have same := number_followed more wholeLength
  rw [byteString] at complete ⊢
  rw [same, byteString]
  generalize number 58 false c = reading at complete
  obtain ⟨result, after⟩ := reading
  cases result with
  | error e => rfl
  | ok declared =>
    simp only [Reading.followedBy, followedBy] at complete ⊢
    split_ifs at complete with overrun
    · have impossible := complete _ rfl
      cases impossible
    · have inside : declared.toInt.toNat ≤ after.rest.length := Nat.le_of_not_lt overrun
      have stillInside : ¬ declared.toInt.toNat > (after.rest ++ more).length := by
        rw [List.length_append]
        omega
      rw [if_neg overrun, if_neg stillInside, List.take_append_of_le_length inside, List.drop_append_of_le_length inside]

end Cursor

/-- The reader of tokens with more text behind what is unread. -/
def Tokenizer.followedBy (t : Tokenizer) (more : Bytes) : Tokenizer := t.withRest (t.rest ++ more)

private theorem complete_of_map {α β : Type} {f : α → β} {result : Except DecodeError α} (complete : Complete (result.map f)) :
    Complete result := by
  intro e failed
  refine complete e ?_
  rw [failed]
  rfl

private theorem Tokenizer.next_followed {t : Tokenizer} (complete : Complete t.next.1) (more : Bytes) :
    (t.followedBy more).next.1 = t.next.1 := by
  obtain ⟨rest, position, depth, finished⟩ := t
  cases finished with
  | true => rfl
  | false =>
    cases rest with
    | nil => exact absurd complete not_complete_of_end
    | cons byte rest =>
      simp only [followedBy, withRest, List.cons_append]
      by_cases isInt : byte = 105
      · subst isInt
        rw [next_int] at complete ⊢
        rw [next_int]
        have same := Cursor.number_followed more (complete_of_map complete)
        have sameNumber := congrArg Prod.fst same
        exact congrArg (Except.map fun number => some (Token.int number)) sameNumber
      by_cases isOne : Text.Decimal.isDigit byte = true
      · rw [next_bytes isOne] at complete ⊢
        rw [next_bytes isOne]
        have same := Cursor.byteString_followed more (complete_of_map complete)
        have sameString := congrArg Prod.fst same
        exact congrArg (Except.map fun content => some (Token.bytes content)) sameString
      · -- A marker, or a byte with which no token begins, is looked at alone.
        simp only [next, Bool.false_eq_true, if_false, isInt, isOne, accepted]
        split_ifs <;> rfl

/-! ## Messages -/

namespace Decoder

/-- The reader with more text behind what is unread. -/
def followedBy (d : Decoder) (more : Bytes) : Decoder := d.withRest (d.tokens.rest ++ more)

private theorem place_refused {value : Value} {tokens : Tokenizer} {stack : List Frame} {e : DecodeError}
    (refused : place value tokens stack = .error e) (tokens' : Tokenizer) : place value tokens' stack = .error e := by
  obtain ⟨rfl, other⟩ := place_error refused
  cases value with
  | dict entries => exact absurd rfl (other entries)
  | int | bytes | list => exact refused

/-- A token that is refused is refused wherever the reader stands. -/
theorem accept_refused {token : Token} {offset : Nat} {tokens : Tokenizer} {stack : List Frame} {e : DecodeError}
    (refused : accept token offset tokens stack = .error e) (tokens' : Tokenizer) :
    accept token offset tokens' stack = .error e := by
  cases token with
  | dictStart | listStart =>
    simp only [accept, openFrame] at refused ⊢
    split_ifs at refused ⊢ <;> exact refused
  | close =>
    simp only [accept, closeFrame] at refused ⊢
    split at refused
    · exact refused
    · exact refused
    · exact place_refused refused tokens'
    · exact place_refused refused tokens'
  | int number =>
    simp only [accept] at refused ⊢
    split_ifs at refused ⊢ with atKey
    · exact refused
    · exact place_refused refused tokens'
  | bytes content =>
    simp only [accept] at refused ⊢
    split at refused
    · split_ifs at refused ⊢ with known
      exact refused
    · exact place_refused refused tokens'

private theorem step_followed {d : Decoder} {e : DecodeError} (failed : d.step = .error e)
    (complete : e.kind.incomplete = false)
    (more : Bytes) : (d.followedBy more).step = .error e := by
  have whole : Complete d.tokens.next.1 := by
    intro e' read
    have isFailure : d.step = .error e' := by
      rw [step]
      split
      · next found =>
        rw [found] at read
        exact congrArg Except.error (Except.error.inj read)
      all_goals
        next found =>
          rw [found] at read
          cases read
    rw [failed] at isFailure
    exact Except.error.inj isFailure ▸ complete
  have same : (d.followedBy more).tokens.next.1 = d.tokens.next.1 := Tokenizer.next_followed whole more
  rw [step] at failed ⊢
  split at failed
  · next found =>
    rw [found] at same
    split
    · next found' =>
      rw [found'] at same
      exact (congrArg Except.error (Except.error.inj same)).trans failed
    all_goals
      next found' =>
        rw [found'] at same
        cases same
  · cases failed
    cases complete
  · next token tokens found =>
    rw [found] at same
    split
    · next found' =>
      rw [found'] at same
      cases same
    · next found' =>
      rw [found'] at same
      cases same
    · next token' tokens' found' =>
      rw [found'] at same
      cases same
      exact accept_refused failed tokens'

private theorem run_followed {e : DecodeError} {steps : Nat} (complete : e.kind.incomplete = false) (more : Bytes) :
    ∀ {d : Decoder}, d.tokens.rest.length < steps → run steps d = .error e → (d.followedBy more).outcome = .error e := by
  induction steps with
  | zero =>
    intro d few
    omega
  | succ steps ih =>
    intro d enough failed
    rw [outcome_eq]
    rw [run] at failed
    split at failed
    · next stepped =>
      cases failed
      rw [step_followed stepped complete more]
      rfl
    · cases failed
    · next d' stepped =>
      obtain ⟨text, isRest, -, moved⟩ := step_moved stepped
      have shorter := rest_length_lt stepped
      have goesOn : (d.followedBy more).step = .ok (.more (d'.followedBy more)) := by
        rw [followedBy, isRest, List.append_assoc]
        exact moved (d'.tokens.rest ++ more)
      rw [goesOn]
      exact ih (by omega) failed

end Decoder

private theorem decodeStart_followed {input : Bytes} {e : DecodeError} (failed : decodeStart input = .error e)
    (complete : e.kind.incomplete = false) (more : Bytes) : decodeStart (input ++ more) = .error e := by
  cases input with
  | nil =>
    cases failed
    cases complete
  | cons byte rest =>
    simp only [decodeStart, List.cons_append] at failed ⊢
    split_ifs at failed ⊢ with isDict
    · exact Decoder.run_followed complete more (Nat.lt_succ_self _) failed
    · exact failed

/-- What is read in full has been read to its end. -/
theorem stop_le_length {input : Bytes} {dict : Dict} {stop : Nat} (read : decodeStart input = .ok (dict, stop)) :
    stop ≤ input.length := by
  obtain ⟨entries, more, rfl, rfl, -⟩ := decodeStart_append_iff.mp read
  simp

private theorem decodeStart_append {input : Bytes} {dict : Dict} {stop : Nat} (read : decodeStart input = .ok (dict, stop))
    (more : Bytes) : decodeStart (input ++ more) = .ok (dict, stop) := by
  obtain ⟨entries, others, rfl, rfl, regular⟩ := decodeStart_append_iff.mp read
  exact decodeStart_append_iff.mpr ⟨entries, others ++ more, List.append_assoc .., rfl, regular⟩

/-- A message that is cut off ends too early, between its tokens or inside of one. -/
theorem decodeStart_cut {input : Bytes} {dict : Dict} {stop k : Nat} (read : decodeStart input = .ok (dict, stop))
    (before : k < stop) : decodeStart (input.take k) = .error ⟨k, .unexpectedEnd⟩ ∨
      ∃ offset declared remaining, decodeStart (input.take k) = .error ⟨offset, .lengthOverrun declared remaining⟩ := by
  have inside := stop_le_length read
  have whole : input.take k ++ input.drop k = input := List.take_append_drop k input
  have length : (input.take k).length = k := List.length_take_of_le (by omega)
  cases isCut : decodeStart (input.take k) with
  | ok result =>
    -- A message within the part would be the whole message.
    obtain ⟨dict', stop'⟩ := result
    have again := decodeStart_append isCut (input.drop k)
    have earlier := stop_le_length isCut
    rw [whole, read] at again
    cases again
    omega
  | error e =>
    cases complete : e.kind.incomplete with
    | false =>
      have again := decodeStart_followed isCut complete (input.drop k)
      rw [whole, read] at again
      cases again
    | true =>
      obtain ⟨offset, kind⟩ := e
      cases kind with
      | unexpectedEnd =>
        obtain ⟨text, behind, isText, isOffset, -, nothing⟩ := exists_fault isCut
        have none : behind = [] := nothing
        rw [none, List.append_nil] at isText
        rw [← isText, length] at isOffset
        cases isOffset
        exact .inl rfl
      | lengthOverrun declared remaining => exact .inr ⟨offset, declared, remaining, rfl⟩
      | _ => cases complete

/-- Whatever stands behind it, a message is read as before, and cut off anywhere it is refused for ending too early; and
an error other than that is the same error whatever stands behind the input. -/
theorem decodeStart_extended (input behind : Bytes) :
    (∀ dict stop, decodeStart input = .ok (dict, stop) →
      decodeStart (input.take stop ++ behind) = .ok (dict, stop) ∧
      ∀ k < stop, decodeStart (input.take k) = .error ⟨k, .unexpectedEnd⟩ ∨
        ∃ offset declared remaining, decodeStart (input.take k) = .error ⟨offset, .lengthOverrun declared remaining⟩) ∧
    ∀ e, decodeStart input = .error e → e.kind ≠ .unexpectedEnd →
      (∀ declared remaining, e.kind ≠ .lengthOverrun declared remaining) → decodeStart (input ++ behind) = .error e := by
  refine ⟨fun dict stop read => ⟨?_, fun k before => decodeStart_cut read before⟩, ?_⟩
  · obtain ⟨entries, more, rfl, rfl, regular⟩ := decodeStart_append_iff.mp read
    rw [List.take_left]
    exact decodeStart_append_iff.mpr ⟨entries, behind, rfl, rfl, regular⟩
  · intro e failed notEnd notOverrun
    refine decodeStart_followed failed ?_ behind
    obtain ⟨offset, kind⟩ := e
    cases kind with
    | unexpectedEnd => exact absurd rfl notEnd
    | lengthOverrun declared remaining => exact absurd rfl (notOverrun declared remaining)
    | _ => rfl

/-- `d1:a2:xye` with a byte behind it, cut off inside of its last string and behind its key; and a key that occurs twice,
whatever follows. -/
theorem cut_and_extended :
    decodeStart [100, 49, 58, 97, 50, 58, 120, 121, 101, 33] = .ok ([([97], .bytes [120, 121])], 9) ∧
    decodeStart ([100, 49, 58, 97, 50, 58, 120, 121, 101] ++ [101, 101]) = .ok ([([97], .bytes [120, 121])], 9) ∧
    (decodeStart [100, 49, 58, 97, 50, 58, 120] = .error ⟨7, .unexpectedEnd⟩ ∨
      ∃ offset declared remaining,
        decodeStart [100, 49, 58, 97, 50, 58, 120] = .error ⟨offset, .lengthOverrun declared remaining⟩) ∧
    decodeStart [100, 48, 58, 48, 58, 48, 58] = .error ⟨5, .duplicateKey []⟩ ∧
    decodeStart ([100, 48, 58, 48, 58, 48, 58] ++ [48, 58, 101]) = .error ⟨5, .duplicateKey []⟩ := by
  have read : decodeStart [100, 49, 58, 97, 50, 58, 120, 121, 101, 33] = .ok ([([97], .bytes [120, 121])], 9) := rfl
  have failed : decodeStart [100, 48, 58, 48, 58, 48, 58] = .error ⟨5, .duplicateKey []⟩ := rfl
  obtain ⟨again, cut⟩ := (decodeStart_extended [100, 49, 58, 97, 50, 58, 120, 121, 101, 33] [101, 101]).1 _ _ read
  exact ⟨read, again, cut 7 (by decide), failed,
    (decodeStart_extended [100, 48, 58, 48, 58, 48, 58] [48, 58, 101]).2 _ failed nofun nofun⟩

end PeerSubstrate.Bencode
