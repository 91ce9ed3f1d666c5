import PeerSubstrate.Proofs.Bencode.Lexeme

/-!
# Faults inside of a token

Where reading a token fails, the text before the offset of the error can still become a token, and what
stands from the offset on is what the error says (`Tokenizer.next_fault`).
-/

namespace PeerSubstrate.Bencode
open PeerSubstrate.Text.Decimal

/-- What may stand in front of the digits of a number. -/
def Sign (text : Bytes) : Prop := text = [] ∨ text = [45]

/-- What stands from the offset of an error on, if the error is one of a single token. -/
def LexicalFault (rest : Bytes) : DecodeError.Kind → Prop
  | .unexpectedEnd => rest = []
  | .unexpectedByte byte => ∃ more, rest = byte :: more
  | .leadingZero => ∃ sign digit more, Sign sign ∧ isDigit digit = true ∧ rest = sign ++ 48 :: digit :: more
  | .negativeZero => ∃ more, rest = 45 :: 48 :: 101 :: more
  | .emptyNumber => ∃ sign more, Sign sign ∧ rest = sign ++ 101 :: more
  | .integerOverflow => ∃ sign numeral n more, Sign sign ∧ Numeral numeral n ∧ rest = sign ++ (numeral ++ more) ∧
      (2 ^ 63 < n ∨ n = 2 ^ 63 ∧ sign = [] ∧ ∃ stop behind, (stop = 58 ∨ stop = 101) ∧ more = stop :: behind)
  | .lengthOverrun declared remaining => ∃ numeral more, Numeral numeral declared ∧ rest = numeral ++ 58 :: more ∧
      more.length = remaining ∧ remaining < declared
  | .notADictionary | .duplicateKey _ | .nonStringKey | .missingValue | .tooDeep => False

/-- A reader fails on a text at `position`: cut off at the offset of the error, the text ends too early, and what
stands from the offset on is at fault. -/
def FailsAt {α : Type} (read : Bytes → Except DecodeError α) (position : Nat) (rest : Bytes) (e : DecodeError) : Prop :=
  ∃ before behind, rest = before ++ behind ∧ e.offset = position + before.length ∧
    read before = .error ⟨e.offset, .unexpectedEnd⟩ ∧ LexicalFault behind e.kind

private theorem FailsAt.here {α : Type} {read : Bytes → Except DecodeError α} {position : Nat} {rest : Bytes}
    {kind : DecodeError.Kind} (ends : read [] = .error ⟨position, .unexpectedEnd⟩) (fault : LexicalFault rest kind) :
    FailsAt read position rest ⟨position, kind⟩ := ⟨[], rest, rfl, rfl, ends, fault⟩

/-- Where one reader ends too early, so does another one. -/
theorem FailsAt.imp {α β : Type} {read : Bytes → Except DecodeError α} {next : Bytes → Except DecodeError β}
    {position : Nat} {rest : Bytes} {e : DecodeError} (fails : FailsAt next position rest e)
    (ends : ∀ before, next before = .error ⟨e.offset, .unexpectedEnd⟩ → read before = .error ⟨e.offset, .unexpectedEnd⟩) :
    FailsAt read position rest e := by
  obtain ⟨before, behind, isRest, offset, ended, fault⟩ := fails
  exact ⟨before, behind, isRest, offset, ends before ended, fault⟩

/-- A reader that takes one byte and goes on as another reader. -/
theorem FailsAt.cons {α β : Type} {read : Bytes → Except DecodeError α} {next : Bytes → Except DecodeError β}
    {position : Nat} {byte : UInt8} {rest : Bytes} {e : DecodeError} (fails : FailsAt next (position + 1) rest e)
    (goesOn : ∀ before, next before = .error ⟨e.offset, .unexpectedEnd⟩ →
      read (byte :: before) = .error ⟨e.offset, .unexpectedEnd⟩) : FailsAt read position (byte :: rest) e := by
  obtain ⟨before, behind, rfl, offset, ends, fault⟩ := fails
  refine ⟨byte :: before, behind, rfl, ?_, goesOn before ends, fault⟩
  rw [offset, List.length_cons]
  omega

namespace Cursor

/-- The digits that have been read so far, none or the numeral of `n`. -/
def Begun (text : Bytes) (n : Nat) : Prop := text = [] ∧ n = 0 ∨ Numeral text n

private theorem positive_of_numeral {text : Bytes} {n : Nat} (numeral : Numeral text n) (noZero : text.head? ≠ some 48) :
    0 < n := by
  by_contra none
  have zero : n = 0 := by omega
  have isZero : Numeral [48] 0 := @numeral_singleton 48 (by decide)
  rw [numeral_unique numeral (zero ▸ isZero)] at noZero
  exact noZero rfl

/-- A digit behind no lone zero makes a numeral of the digits so far. -/
theorem Begun.concat {text : Bytes} {n : Nat} (begun : Begun text n) {byte : UInt8} (isOne : isDigit byte = true)
    (noZero : text.head? ≠ some 48) : Numeral (text ++ [byte]) (10 * n + digitValue byte) := by
  rcases begun with ⟨rfl, rfl⟩ | numeral
  · simpa using numeral_singleton isOne
  · exact numeral.concat (positive_of_numeral numeral noZero) isOne

private theorem Begun.eq_zero {text : Bytes} {n : Nat} (begun : Begun text n) (zero : text.head? = some 48) : text = [48] := by
  rcases begun with ⟨rfl, rfl⟩ | numeral
  · cases zero
  · obtain ⟨byte, rfl⟩ := List.length_eq_one_iff.mp (numeral.noLeadingZero zero)
    simpa using zero

/-- What is wrong with the digits of a number, if not the byte at hand. -/
def DigitFault (text : Bytes) (kind : DecodeError.Kind) : Prop :=
  (kind = .leadingZero ∧ ∃ digit more, isDigit digit = true ∧ text = 48 :: digit :: more) ∨
  (kind = .integerOverflow ∧ ∃ numeral n more, Numeral numeral n ∧ 2 ^ 63 < n ∧ text = numeral ++ more)

private theorem digits_fault {stop : UInt8} {start : Nat} {e : DecodeError} {rest : Bytes} :
    ∀ {text : Bytes} {n position : Nat},
    Begun text n → (digits stop start text.head? (-(n : Int)) rest position).1 = .error e →
    FailsAt (fun rest => (digits stop start text.head? (-(n : Int)) rest position).1) position rest e ∨
      e.offset = start ∧ DigitFault (text ++ rest) e.kind := by
  induction rest with
  | nil =>
    intro text n position _ failed
    cases failed
    exact .inl (.here rfl rfl)
  | cons byte rest ih =>
    intro text n position begun failed
    by_cases atStop : byte = stop
    · rw [atStop, digits_stop] at failed
      cases failed
    · by_cases isOne : isDigit byte = true
      · by_cases zero : text.head? = some 48
        · have leading : (digits stop start text.head? (-(n : Int)) (byte :: rest) position).1 =
              .error ⟨start, .leadingZero⟩ := by
            simp [digits, atStop, isOne, zero]
          rw [leading] at failed
          cases failed
          rw [begun.eq_zero zero]
          exact .inr ⟨rfl, .inl ⟨rfl, byte, rest, isOne, rfl⟩⟩
        · have numeral := begun.concat isOne zero
          by_cases fits : 10 * n + digitValue byte ≤ 2 ^ 63
          · have first : text.head?.or (some byte) = (text ++ [byte]).head? := by
              cases text <;> rfl
            have goesOn : ∀ others, digits stop start text.head? (-(n : Int)) (byte :: others) position =
                digits stop start (text ++ [byte]).head? (-((10 * n + digitValue byte : Nat) : Int)) others (position + 1) := by
              intro others
              rw [digits_cons start others position atStop isOne zero fits, first]
            rw [goesOn] at failed
            rcases ih (.inr numeral) failed with fails | ⟨offset, fault⟩
            · refine .inl (fails.cons fun before ends => ?_)
              rw [goesOn]
              exact ends
            · rw [List.append_assoc, List.singleton_append] at fault
              exact .inr ⟨offset, fault⟩
          · rw [digits_overflow start rest position atStop isOne zero (by omega)] at failed
            cases failed
            refine .inr ⟨rfl, .inr ⟨rfl, text ++ [byte], _, rest, numeral, by omega, ?_⟩⟩
            rw [List.append_assoc, List.singleton_append]
      · have unexpected : (digits stop start text.head? (-(n : Int)) (byte :: rest) position).1 =
            .error ⟨position, .unexpectedByte byte⟩ := by
          simp [digits, atStop, isOne]
        rw [unexpected] at failed
        cases failed
        exact .inl (.here rfl ⟨rest, rfl⟩)

/-- What is wrong with a number behind its sign, if not the byte at hand. -/
def NumberFault (stop : UInt8) (negative : Bool) (text : Bytes) (kind : DecodeError.Kind) : Prop :=
  DigitFault text kind ∨
  (kind = .emptyNumber ∧ ∃ more, text = stop :: more) ∨
  (kind = .negativeZero ∧ negative = true ∧ ∃ more, text = 48 :: stop :: more) ∨
  (kind = .integerOverflow ∧ negative = false ∧ ∃ numeral more, Numeral numeral (2 ^ 63) ∧ text = numeral ++ stop :: more)

/-- Only in front of its end has a number no digits. -/
theorem stop_of_no_digits {stop : UInt8} {start position : Nat} {rest : Bytes} {after : Cursor}
    (read : digits stop start none 0 rest position = (.ok none, after)) : ∃ more, rest = stop :: more := by
  cases rest with
  | nil => simp [digits] at read
  | cons byte rest =>
    by_cases atStop : byte = stop
    · exact ⟨rest, by rw [atStop]⟩
    · by_cases isOne : isDigit byte = true
      · have small := digitValue_lt isOne
        rw [show (0 : Int) = -((0 : Nat) : Int) by simp,
          digits_cons start rest position atStop isOne (by simp) (by omega), Option.none_or] at read
        obtain ⟨_, _, _, isNone, _⟩ := tail_of_digits (by omega) read
        cases isNone
      · simp [digits, atStop, isOne] at read

private theorem withSign_fault {negative : Bool} {start n : Nat} {e : DecodeError} (fits : n ≤ 2 ^ 63)
    (failed : withSign negative start (-(n : Int)) = .error e) : e.offset = start ∧
      (e.kind = .negativeZero ∧ negative = true ∧ n = 0 ∨ e.kind = .integerOverflow ∧ negative = false ∧ n = 2 ^ 63) := by
  cases negative with
  | true =>
    simp only [withSign, if_true] at failed
    split_ifs at failed with zero
    cases failed
    exact ⟨rfl, .inl ⟨rfl, rfl, by omega⟩⟩
  | false =>
    simp only [withSign, Bool.false_eq_true, if_false, Int.neg_neg, Int64.toInt_maxValue] at failed
    split_ifs at failed with large
    cases failed
    exact ⟨rfl, .inr ⟨rfl, rfl, by omega⟩⟩

private theorem unsignedNumber_fault {stop : UInt8} (noDigit : isDigit stop = false) {negative : Bool} {start position : Nat}
    {rest : Bytes} {e : DecodeError} (failed : (unsignedNumber stop negative start ⟨rest, position⟩).1 = .error e) :
    FailsAt (fun rest => (unsignedNumber stop negative start ⟨rest, position⟩).1) position rest e ∨
      e.offset = start ∧ NumberFault stop negative rest e.kind := by
  rw [unsignedNumber] at failed
  split at failed
  · next e' after read =>
    have same : e' = e := Except.error.inj failed
    have failedDigits : (digits stop start ([] : Bytes).head? (-((0 : Nat) : Int)) rest position).1 = .error e := by
      rw [← same]
      simp [read]
    rcases digits_fault (.inl ⟨rfl, rfl⟩) failedDigits with fails | ⟨offset, fault⟩
    · refine .inl (fails.imp fun before ends => ?_)
      simp only [List.head?_nil, Int.natCast_zero, Int.neg_zero] at ends
      rw [unsignedNumber]
      split
      · next ended =>
        rw [ended] at ends
        exact congrArg Except.error (Except.error.inj ends)
      · next ended =>
        rw [ended] at ends
        cases ends
      · next ended =>
        rw [ended] at ends
        cases ends
    · exact .inr ⟨offset, .inl fault⟩
  · next after read =>
    cases failed
    exact .inr ⟨rfl, .inr (.inl ⟨rfl, stop_of_no_digits read⟩)⟩
  · next total after read =>
    obtain ⟨text, n, more, isRest, numeral, fits, rfl, -⟩ := (digits_none_iff noDigit).mp read
    simp only at isRest
    subst isRest
    obtain ⟨offset, ⟨isKind, isNegative, rfl⟩ | ⟨isKind, isPositive, rfl⟩⟩ := withSign_fault fits failed
    · have zero : text = [48] := numeral_unique numeral (@numeral_singleton 48 (by decide))
      exact .inr ⟨offset, .inr (.inr (.inl ⟨isKind, isNegative, more, by rw [zero]; rfl⟩))⟩
    · exact .inr ⟨offset, .inr (.inr (.inr ⟨isKind, isPositive, text, more, numeral, rfl⟩))⟩

/-- Behind its sign, a fault of a number is one of the text from the sign on. -/
theorem NumberFault.lexical {stop : UInt8} {negative : Bool} {text : Bytes} {kind : DecodeError.Kind}
    (fault : NumberFault stop negative text kind) (isStop : stop = 58 ∨ stop = 101)
    (number : stop = 58 → negative = false ∧ ∀ more, text ≠ 58 :: more) :
    LexicalFault (if negative then 45 :: text else text) kind := by
  obtain ⟨sign, isSign, signed⟩ : ∃ sign, Sign sign ∧ (if negative then 45 :: text else text) = sign ++ text := by
    cases negative with
    | true => exact ⟨[45], .inr rfl, rfl⟩
    | false => exact ⟨[], .inl rfl, rfl⟩
  rcases fault with (⟨rfl, digit, more, isOne, rfl⟩ | ⟨rfl, numeral, n, more, isNumeral, large, rfl⟩) | ⟨rfl, more, rfl⟩ |
    ⟨rfl, rfl, more, rfl⟩ | ⟨rfl, rfl, numeral, more, isNumeral, rfl⟩
  · exact ⟨sign, digit, more, isSign, isOne, signed⟩
  · exact ⟨sign, numeral, n, more, isSign, isNumeral, signed, .inl large⟩
  · rcases isStop with rfl | rfl
    · exact absurd rfl ((number rfl).2 more)
    · exact ⟨sign, more, isSign, signed⟩
  · rcases isStop with rfl | rfl
    · exact absurd (number rfl).1 (by decide)
    · exact ⟨more, rfl⟩
  · exact ⟨[], numeral, 2 ^ 63, stop :: more, .inl rfl, isNumeral, rfl, .inr ⟨rfl, rfl, stop, more, isStop, rfl⟩⟩

private theorem signed_fault {position : Nat} {rest : Bytes} {e : DecodeError}
    (failed : (number 101 true ⟨rest, position⟩).1 = .error e) :
    FailsAt (fun rest => (number 101 true ⟨rest, position⟩).1) position rest e := by
  have anywhere : ∀ {others : Bytes} {kind : DecodeError.Kind}, LexicalFault others kind →
      FailsAt (fun rest => (number 101 true ⟨rest, position⟩).1) position others ⟨position, kind⟩ := fun fault => .here rfl fault
  obtain ⟨offset, kind⟩ := e
  cases rest with
  | nil =>
    cases failed
    exact anywhere rfl
  | cons byte rest =>
    by_cases minus : byte = 45
    · subst minus
      have goesOn : ∀ others, number 101 true ⟨45 :: others, position⟩ =
          unsignedNumber 101 true position ⟨others, position + 1⟩ := fun _ => rfl
      rw [goesOn] at failed
      rcases unsignedNumber_fault (by decide) failed with fails | ⟨rfl, fault⟩
      · exact fails.cons fun before ends => by rw [goesOn]; exact ends
      · exact anywhere (fault.lexical (.inr rfl) fun colon => absurd colon (by decide))
    · have goesOn : ∀ others, number 101 true ⟨byte :: others, position⟩ =
          unsignedNumber 101 false position ⟨byte :: others, position⟩ := by
        intro others
        simp [number, minus]
      rw [goesOn] at failed
      rcases unsignedNumber_fault (by decide) failed with ⟨before, behind, isRest, isOffset, ends, fault⟩ | ⟨rfl, fault⟩
      · refine ⟨before, behind, isRest, isOffset, ?_, fault⟩
        cases before with
        | nil =>
          rw [isOffset]
          rfl
        | cons first before =>
          obtain ⟨rfl, -⟩ := List.cons.inj isRest
          exact (congrArg Prod.fst (goesOn before)).trans ends
      · exact anywhere (fault.lexical (.inr rfl) fun colon => absurd colon (by decide))

private theorem byteString_fault {position : Nat} {byte : UInt8} (isOne : isDigit byte = true) {rest : Bytes} {e : DecodeError}
    (failed : (byteString ⟨byte :: rest, position⟩).1 = .error e) :
    FailsAt (fun rest => (byteString ⟨rest, position⟩).1) position (byte :: rest) e := by
  have anywhere : ∀ {kind : DecodeError.Kind}, LexicalFault (byte :: rest) kind →
      FailsAt (fun rest => (byteString ⟨rest, position⟩).1) position (byte :: rest) ⟨position, kind⟩ := fun fault => .here rfl fault
  obtain ⟨offset, kind⟩ := e
  rw [byteString] at failed
  split at failed
  · next e' after read =>
    have same : e' = ⟨offset, kind⟩ := Except.error.inj failed
    have failedLength : (unsignedNumber 58 false position ⟨byte :: rest, position⟩).1 = .error ⟨offset, kind⟩ := by
      rw [number, if_neg (by decide)] at read
      rw [← same, read]
    rcases unsignedNumber_fault (by decide) failedLength with fails | ⟨rfl, fault⟩
    · refine fails.imp fun before ends => ?_
      have sameEnd : (number 58 false ⟨before, position⟩).1 = .error ⟨offset, .unexpectedEnd⟩ := by
        rw [number, if_neg (by decide)]
        exact ends
      rw [byteString]
      split
      · next ended =>
        rw [ended] at sameEnd
        exact congrArg Except.error (Except.error.inj sameEnd)
      · next ended =>
        rw [ended] at sameEnd
        cases sameEnd
    · refine anywhere (fault.lexical (.inl rfl) fun _ => ⟨rfl, fun more colon => ?_⟩)
      rw [(List.cons.inj colon).1] at isOne
      exact absurd isOne (by decide)
  · next declared after read =>
    rw [number, if_neg (by decide)] at read
    obtain ⟨text, n, more, isRest, numeral, same, -, rfl⟩ := (unsignedNumber_eq_ok_iff (by decide)).mp read
    simp only [Bool.false_eq_true, if_false] at same
    simp only [same, Int.toNat_natCast] at failed
    split_ifs at failed with overrun
    cases failed
    exact anywhere ⟨text, more, numeral, isRest, rfl, overrun⟩

end Cursor

/-! ## Tokens -/

namespace Tokenizer

/-- The reader in front of another text. -/
def withRest (t : Tokenizer) (rest : Bytes) : Tokenizer := { t with rest }

theorem next_nil {t : Tokenizer} (going : t.finished = false) :
    (t.withRest []).next.1 = .error ⟨t.position, .unexpectedEnd⟩ := by
  simp [next, withRest, going]

theorem next_int (rest : Bytes) (position depth : Nat) :
    (⟨105 :: rest, position, depth, false⟩ : Tokenizer).next.1 =
      ((⟨rest, position + 1⟩ : Cursor).number 101 true).1.map fun number => some (.int number) := by
  have other : (105 : UInt8) ≠ 100 ∧ (105 : UInt8) ≠ 108 ∧ (105 : UInt8) ≠ 101 := by decide
  simp only [next, Bool.false_eq_true, if_false, other.1, other.2.1, other.2.2, if_true]
  split
  · next read => rw [read]; rfl
  · next read => rw [read]; rfl

theorem next_bytes {byte : UInt8} (isOne : isDigit byte = true) (rest : Bytes) (position depth : Nat) :
    (⟨byte :: rest, position, depth, false⟩ : Tokenizer).next.1 =
      (⟨byte :: rest, position⟩ : Cursor).byteString.1.map fun content => some (.bytes content) := by
  have range := isDigit_iff.mp isOne
  have other : ∀ marker : UInt8, 57 < marker.toNat → byte ≠ marker := by
    rintro marker above rfl
    omega
  simp only [next, Bool.false_eq_true, if_false, other 100 (by decide), other 108 (by decide), other 101 (by decide),
    other 105 (by decide), isOne, if_true, cursor]
  split
  · next read => rw [read]; rfl
  · next read => rw [read]; rfl

private theorem error_of_map {α β : Type} {f : α → β} {result : Except DecodeError α} {e : DecodeError}
    (failed : result.map f = .error e) : result = .error e := by
  cases result with
  | error e' => exact congrArg Except.error (Except.error.inj failed)
  | ok value => cases failed

theorem next_fault {t : Tokenizer} {e : DecodeError} (going : t.finished = false) (failed : t.next.1 = .error e) :
    FailsAt (fun rest => (t.withRest rest).next.1) t.position t.rest e := by
  have ends := next_nil going
  obtain ⟨rest, position, depth, finished⟩ := t
  simp only at going
  subst going
  simp only [withRest] at ends ⊢
  cases rest with
  | nil =>
    cases failed
    exact .here ends rfl
  | cons byte rest =>
    by_cases isInt : byte = 105
    · subst isInt
      rw [next_int] at failed
      refine (Cursor.signed_fault (error_of_map failed)).cons fun before ended => ?_
      rw [next_int, ended]
      rfl
    by_cases isOne : isDigit byte = true
    · rw [next_bytes isOne] at failed
      obtain ⟨before, behind, isRest, offset, ended, fault⟩ := Cursor.byteString_fault isOne (error_of_map failed)
      refine ⟨before, behind, isRest, offset, ?_, fault⟩
      simp only at ended ⊢
      cases before with
      | nil =>
        rw [ends, offset]
        rfl
      | cons first before =>
        obtain ⟨rfl, -⟩ := List.cons.inj isRest
        rw [next_bytes isOne, ended]
        rfl
    · -- What is left are the markers, and bytes with which no token begins.
      have unexpected : e = ⟨position, .unexpectedByte byte⟩ := by
        simp only [next, Bool.false_eq_true, if_false, isInt, isOne] at failed
        split_ifs at failed with isDict isList isClose outside <;> cases failed <;> rfl
      rw [unexpected]
      exact .here ends ⟨rest, rfl⟩

end Tokenizer

end PeerSubstrate.Bencode
