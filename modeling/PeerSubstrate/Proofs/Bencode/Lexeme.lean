import PeerSubstrate.Bencode.Token
import PeerSubstrate.Proofs.Bencode.Grammar

/-!
# Tokens and their lexemes

Reading a token takes exactly its lexeme off the input (`next_eq_some_iff`): the reader accepts every
number and every byte string in the one way in which it may be written, and nothing else.
-/

namespace PeerSubstrate.Bencode
open PeerSubstrate.Text.Decimal

namespace Cursor

theorem digits_stop (stop : UInt8) (start : Nat) (first : Option UInt8) (total : Int) (more : Bytes)
    (position : Nat) : digits stop start first total (stop :: more) position =
      (.ok (first.map fun _ => total), ⟨stop :: more, position⟩) := by
  rw [digits, if_pos rfl]

/-- A digit is taken in if it stands behind no lone zero and the number stays in range. -/
theorem digits_cons {stop byte : UInt8} {first : Option UInt8} {n : Nat} (start : Nat) (rest : Bytes)
    (position : Nat) (goesOn : byte ≠ stop) (isOne : isDigit byte = true) (noZero : first ≠ some 48)
    (fits : 10 * n + digitValue byte ≤ 2 ^ 63) :
    digits stop start first (-(n : Int)) (byte :: rest) position =
      digits stop start (first.or (some byte)) (-((10 * n + digitValue byte : Nat) : Int)) rest (position + 1) := by
  have next : -(n : Int) * 10 - (digitValue byte : Int) = -((10 * n + digitValue byte : Nat) : Int) := by
    omega
  have inRange : ¬ -((10 * n + digitValue byte : Nat) : Int) < Int64.minValue.toInt := by
    rw [Int64.toInt_minValue]
    omega
  rw [digits]
  simp only [goesOn, isOne, noZero, next, inRange, if_false, Bool.not_true, Bool.false_eq_true]

theorem digits_overflow {stop byte : UInt8} {first : Option UInt8} {n : Nat} (start : Nat) (rest : Bytes)
    (position : Nat) (goesOn : byte ≠ stop) (isOne : isDigit byte = true) (noZero : first ≠ some 48)
    (tooLarge : 2 ^ 63 < 10 * n + digitValue byte) :
    digits stop start first (-(n : Int)) (byte :: rest) position =
      (.error ⟨start, .integerOverflow⟩, ⟨byte :: rest, position⟩) := by
  have outOfRange : -(n : Int) * 10 - (digitValue byte : Int) < Int64.minValue.toInt := by
    rw [Int64.toInt_minValue]
    omega
  rw [digits]
  simp only [goesOn, isOne, noZero, outOfRange, if_false, if_true, Bool.not_true, Bool.false_eq_true]

/-- What was read of a number, behind its first digit and the number `n` so far: more digits up to
`stop`, none of them if the first one is a zero. -/
def Tail (stop first : UInt8) (n : Nat) (rest text more : Bytes) : Prop :=
  rest = text ++ stop :: more ∧ (∀ byte ∈ text, isDigit byte = true) ∧ (first = 48 → text = []) ∧
    extend n text ≤ 2 ^ 63

private theorem digits_of_tail {stop first : UInt8} {text more : Bytes} (start : Nat)
    (noDigit : isDigit stop = false) : ∀ {n position : Nat} {rest : Bytes}, Tail stop first n rest text more →
      digits stop start (some first) (-(n : Int)) rest position =
        (.ok (some (-(extend n text : Int))), ⟨stop :: more, position + text.length⟩) := by
  induction text with
  | nil =>
    rintro n position _ ⟨rfl, -⟩
    exact digits_stop ..
  | cons byte text ih =>
    rintro n position _ ⟨rfl, areDigits, zero, fits⟩
    have isOne := areDigits byte (List.mem_cons_self ..)
    have nonzero : first ≠ 48 := fun isZero => List.cons_ne_nil _ _ (zero isZero)
    have below := le_extend (10 * n + digitValue byte) text
    rw [extend_cons] at fits
    rw [List.cons_append, digits_cons start _ _ (by rintro rfl; simp [isOne] at noDigit) isOne (by simpa using nonzero)
      (by omega), Option.or_some, Option.getD_some,
      ih ⟨rfl, fun b member => areDigits b (List.mem_cons_of_mem _ member), fun isZero => absurd isZero nonzero, fits⟩,
      extend_cons]
    simp [Nat.add_right_comm, Nat.add_assoc]

theorem tail_of_digits {stop first : UInt8} {start : Nat} {rest : Bytes} :
    ∀ {n position : Nat} {result : Option Int} {after : Cursor}, n ≤ 2 ^ 63 →
      digits stop start (some first) (-(n : Int)) rest position = (.ok result, after) →
      ∃ text more, Tail stop first n rest text more ∧ result = some (-(extend n text : Int)) ∧
        after = ⟨stop :: more, position + text.length⟩ := by
  induction rest with
  | nil =>
    intro n position result after _ read
    simp [digits] at read
  | cons byte rest ih =>
    intro n position result after small read
    by_cases atStop : byte = stop
    · subst atStop
      rw [digits_stop] at read
      obtain ⟨rfl, rfl⟩ : some (-(n : Int)) = result ∧ (⟨byte :: rest, position⟩ : Cursor) = after := by
        simpa using read
      exact ⟨[], rest, ⟨rfl, by simp, fun _ => rfl, small⟩, rfl, rfl⟩
    · by_cases isOne : isDigit byte = true
      · by_cases zero : first = 48
        · simp [digits, atStop, isOne, zero] at read
        · by_cases fits : 10 * n + digitValue byte ≤ 2 ^ 63
          · rw [digits_cons start _ _ atStop isOne (by simpa using zero) fits] at read
            obtain ⟨text, more, ⟨rfl, areDigits, -, inRange⟩, rfl, rfl⟩ := ih fits read
            refine ⟨byte :: text, more, ⟨rfl, ?_, fun isZero => absurd isZero zero, inRange⟩, rfl, ?_⟩
            · intro b member
              rcases List.mem_cons.mp member with rfl | member
              · exact isOne
              · exact areDigits b member
            · simp [Nat.add_right_comm, Nat.add_assoc]
          · rw [digits_overflow start _ _ atStop isOne (by simpa using zero) (by omega)] at read
            simp at read
      · simp [digits, atStop, isOne] at read

/-- Reading the digits of a number finds its numeral and stops behind it. -/
theorem digits_none_iff {stop : UInt8} (noDigit : isDigit stop = false) {start position : Nat} {rest : Bytes}
    {total : Int} {after : Cursor} :
    digits stop start none 0 rest position = (.ok (some total), after) ↔
      ∃ text n more, rest = text ++ stop :: more ∧ Numeral text n ∧ n ≤ 2 ^ 63 ∧ total = -(n : Int) ∧
        after = ⟨stop :: more, position + text.length⟩ := by
  constructor
  · intro read
    cases rest with
    | nil => simp [digits] at read
    | cons byte rest =>
      by_cases atStop : byte = stop
      · simp [atStop, digits_stop] at read
      · by_cases isOne : isDigit byte = true
        · have small := digitValue_lt isOne
          rw [show (0 : Int) = -((0 : Nat) : Int) by simp,
            digits_cons start rest position atStop isOne (by simp) (by omega)] at read
          simp only [Nat.mul_zero, Nat.zero_add, Option.none_or] at read
          obtain ⟨text, more, ⟨rfl, areDigits, zero, fits⟩, same, rfl⟩ := tail_of_digits (by omega) read
          refine ⟨byte :: text, extend (digitValue byte) text, more, rfl, ⟨by simp, ?_, ?_, ?_⟩, fits,
            by simpa using same, by simp [Nat.add_right_comm, Nat.add_assoc]⟩
          · intro b member
            rcases List.mem_cons.mp member with rfl | member
            · exact isOne
            · exact areDigits b member
          · intro isZero
            rw [zero (by simpa using isZero)]
            rfl
          · rw [ofDigits, extend_cons, Nat.mul_zero, Nat.zero_add]
        · simp [digits, atStop, isOne] at read
  · rintro ⟨text, n, more, rfl, numeral, fits, rfl, rfl⟩
    obtain ⟨byte, text, rfl⟩ := List.exists_cons_of_ne_nil numeral.nonempty
    have isOne := numeral.digits byte (List.mem_cons_self ..)
    have small := digitValue_lt isOne
    have same := numeral.ofDigits_eq
    rw [ofDigits, extend_cons, Nat.mul_zero, Nat.zero_add] at same
    rw [show (0 : Int) = -((0 : Nat) : Int) by simp, List.cons_append,
      digits_cons start _ position (by rintro rfl; simp [isOne] at noDigit) isOne (by simp) (by omega)]
    simp only [Nat.mul_zero, Nat.zero_add, Option.none_or]
    rw [digits_of_tail start noDigit ⟨rfl, fun b member => numeral.digits b (List.mem_cons_of_mem _ member),
      fun zero => by simpa using numeral.noLeadingZero (by simp [zero]), by omega⟩, same]
    simp [Nat.add_right_comm, Nat.add_assoc]

private theorem withSign_eq_ok_iff {negative : Bool} {start n : Nat} {number : Int64} (fits : n ≤ 2 ^ 63) :
    withSign negative start (-(n : Int)) = .ok number ↔
      number.toInt = (if negative then -(n : Int) else n) ∧ (negative = true → 0 < n) := by
  have back := Int64.ofInt_toInt number
  have high := number.toInt_lt
  cases negative with
  | true =>
    simp only [withSign, if_true, forall_const]
    by_cases zero : n = 0
    · simp [zero]
    · rw [if_neg (by omega), Except.ok.injEq]
      have there : (Int64.ofInt (-(n : Int))).toInt = -n := Int64.toInt_ofInt_of_le (by omega) (by omega)
      constructor
      · rintro rfl
        exact ⟨there, by omega⟩
      · rintro ⟨same, -⟩
        rw [← same, back]
  | false =>
    simp only [withSign, Bool.false_eq_true, if_false, false_implies, and_true, Int.neg_neg, Int64.toInt_maxValue]
    by_cases large : (n : Int) > 2 ^ 63 - 1
    · rw [if_pos large]
      simp only [reduceCtorEq, false_iff]
      omega
    · rw [if_neg large, Except.ok.injEq]
      have there : (Int64.ofInt (n : Int)).toInt = n := Int64.toInt_ofInt_of_le (by omega) (by omega)
      constructor
      · rintro rfl
        exact there
      · intro same
        rw [← same, back]

theorem unsignedNumber_eq_ok_iff {stop : UInt8} (noDigit : isDigit stop = false) {negative : Bool} {start : Nat}
    {c after : Cursor} {number : Int64} :
    unsignedNumber stop negative start c = (.ok number, after) ↔
      ∃ text n more, c.rest = text ++ stop :: more ∧ Numeral text n ∧
        number.toInt = (if negative then -(n : Int) else n) ∧ (negative = true → 0 < n) ∧
        after = ⟨more, c.position + text.length + 1⟩ := by
  have low := number.le_toInt
  have high := number.toInt_lt
  constructor
  · intro read
    rw [unsignedNumber] at read
    split at read
    · simp at read
    · simp at read
    · next total stopped found =>
      obtain ⟨text, n, more, isRest, numeral, fits, rfl, rfl⟩ := (digits_none_iff noDigit).mp found
      obtain ⟨accepted, rfl⟩ := Prod.mk.inj read
      obtain ⟨same, positive⟩ := (withSign_eq_ok_iff fits).mp accepted
      exact ⟨text, n, more, isRest, numeral, same, positive, rfl⟩
  · rintro ⟨text, n, more, isRest, numeral, same, positive, rfl⟩
    have fits : n ≤ 2 ^ 63 := by split at same <;> omega
    rw [unsignedNumber, (digits_none_iff noDigit).mpr ⟨text, n, more, isRest, numeral, fits, rfl, rfl⟩]
    simp [(withSign_eq_ok_iff fits).mpr ⟨same, positive⟩]

/-- A signed number is read exactly where its literal stands. -/
theorem signed_eq_ok_iff {c after : Cursor} {number : Int64} :
    c.number 101 true = (.ok number, after) ↔
      ∃ more, c.rest = signed number ++ 101 :: more ∧ after = ⟨more, c.position + (signed number).length + 1⟩ := by
  have literal : ∀ text more, c.rest = text ++ 101 :: more ∧ Integer text number ↔
      c.rest = signed number ++ 101 :: more ∧ text = signed number := by
    intro text more
    rw [integer_iff_signed]
    exact and_congr_left fun same => same ▸ Iff.rfl
  obtain ⟨rest, position⟩ := c
  constructor
  · intro read
    cases rest with
    | nil => simp [Cursor.number] at read
    | cons byte rest =>
      simp only [Cursor.number, if_true] at read
      split_ifs at read with minus
      · obtain ⟨text, n, more, rfl, numeral, same, positive, rfl⟩ := (unsignedNumber_eq_ok_iff (by decide)).mp read
        have found := (literal (45 :: text) more).mp
          ⟨by rw [minus, List.cons_append], .negative numeral (positive rfl) same⟩
        exact ⟨more, found.1, by simp [← found.2, Nat.add_right_comm, Nat.add_assoc]⟩
      · obtain ⟨text, n, more, isRest, numeral, same, -, rfl⟩ := (unsignedNumber_eq_ok_iff (by decide)).mp read
        have found := (literal text more).mp ⟨isRest, .unsigned numeral same⟩
        exact ⟨more, found.1, by simp [← found.2]⟩
  · rintro ⟨more, isRest, rfl⟩
    obtain ⟨-, derived⟩ := (literal _ more).mpr ⟨isRest, rfl⟩
    simp only at isRest
    rw [Cursor.number, if_pos rfl]
    generalize signed number = text at derived isRest
    cases derived with
    | @unsigned _ n _ numeral same =>
      obtain ⟨byte, text, rfl⟩ := List.exists_cons_of_ne_nil numeral.nonempty
      have isOne := numeral.digits byte (List.mem_cons_self ..)
      subst isRest
      rw [List.cons_append]
      simp only
      rw [if_neg (by rintro rfl; simp [isDigit] at isOne)]
      exact (unsignedNumber_eq_ok_iff (by decide)).mpr ⟨_, n, more, rfl, numeral, same, by simp, rfl⟩
    | @negative text n _ numeral positive same =>
      subst isRest
      rw [List.cons_append]
      simp only [if_true]
      exact (unsignedNumber_eq_ok_iff (by decide)).mpr
        ⟨text, n, more, rfl, numeral, same, fun _ => positive, by simp [Nat.add_right_comm, Nat.add_assoc]⟩

/-- A byte string is read exactly where it stands behind its length. -/
theorem byteString_eq_ok_iff {c after : Cursor} {content : Bytes} :
    c.byteString = (.ok content, after) ↔ content.length < 2 ^ 63 ∧
      ∃ more, c.rest = spellBytes content ++ more ∧ after = ⟨more, c.position + (spellBytes content).length⟩ := by
  constructor
  · intro read
    rw [byteString] at read
    split at read
    · simp at read
    · next declared behind found =>
      rw [number, if_neg (by decide)] at found
      obtain ⟨text, n, more, isRest, numeral, same, -, rfl⟩ := (unsignedNumber_eq_ok_iff (by decide)).mp found
      have high := declared.toInt_lt
      simp only [Bool.false_eq_true, if_false] at same
      rw [same] at read high
      simp only [Int.toNat_natCast] at read
      by_cases overrun : n > more.length
      · simp [overrun] at read
      · rw [if_neg overrun] at read
        obtain ⟨isContent, rfl⟩ := Prod.mk.inj read
        have isContent : more.take n = content := Except.ok.inj isContent
        have length : content.length = n := by rw [← isContent, List.length_take]; omega
        refine ⟨by omega, more.drop n, ?_, ?_⟩
        · rw [isRest, (numeral_iff_digits (by omega)).mp numeral, spellBytes, length, ← isContent]
          simp
        · rw [spellBytes, length, ← (numeral_iff_digits (by omega)).mp numeral]
          simp [length, Nat.add_assoc, Nat.add_comm n]
  · rintro ⟨short, more, isRest, rfl⟩
    have same : (Int64.ofInt content.length).toInt = content.length :=
      Int64.toInt_ofInt_of_le (by omega) (by omega)
    have found : c.number 58 false = (.ok (Int64.ofInt content.length),
        ⟨content ++ more, c.position + (Text.Decimal.digits content.length).length + 1⟩) := by
      rw [number, if_neg (by decide)]
      refine (unsignedNumber_eq_ok_iff (by decide)).mpr
        ⟨_, content.length, content ++ more, ?_, digits_numeral (by omega), by simpa using same, by simp, rfl⟩
      rw [isRest, spellBytes, List.append_assoc, List.cons_append]
    rw [byteString, found]
    simp only [same, Int.toNat_natCast]
    rw [if_neg (by simp)]
    simp [spellBytes]
    omega

end Cursor

/-! ## Tokens -/

namespace Token

/-- A token as it stands in a text. -/
def lexeme : Token → Bytes
  | .dictStart => [100]
  | .listStart => [108]
  | .close => [101]
  | .int number => 105 :: (signed number ++ [101])
  | .bytes content => spellBytes content

/-- The number of open containers behind a token, from that before it. -/
def level (depth : Nat) : Token → Nat
  | .dictStart | .listStart => depth + 1
  | .close => depth - 1
  | .int _ | .bytes _ => depth

/-- What may stand where `depth` containers are open: a closing marker only inside of one, and byte
strings only below 2^63 bytes. -/
def Fits (depth : Nat) : Token → Prop
  | .close => 0 < depth
  | .bytes content => content.length < 2 ^ 63
  | .dictStart | .listStart | .int _ => True

theorem lexeme_ne_nil (token : Token) : token.lexeme ≠ [] := by
  cases token <;> simp [lexeme, spellBytes]

/-- A byte string begins with a digit. -/
theorem spellBytes_eq_cons {content : Bytes} (short : content.length < 2 ^ 63) :
    ∃ byte rest, spellBytes content = byte :: rest ∧ isDigit byte = true := by
  have numeral := digits_numeral (n := content.length) (by omega)
  obtain ⟨byte, rest, isLength⟩ := List.exists_cons_of_ne_nil numeral.nonempty
  refine ⟨byte, rest ++ 58 :: content, by rw [spellBytes, isLength, List.cons_append], ?_⟩
  exact numeral.digits byte (isLength ▸ List.mem_cons_self ..)

end Token

namespace Tokenizer

/-- The reader behind a token. -/
def behind (t : Tokenizer) (token : Token) (more : Bytes) : Tokenizer where
  rest := more
  position := t.position + token.lexeme.length
  depth := token.level t.depth
  finished := token.level t.depth == 0

/-- Where a token is read, its lexeme stands. -/
theorem lexeme_of_next {rest : Bytes} {position depth : Nat} {after : Tokenizer} {token : Token}
    (read : (⟨rest, position, depth, false⟩ : Tokenizer).next = (.ok (some token), after)) :
    token.Fits depth ∧ ∃ more, rest = token.lexeme ++ more ∧
      after = (⟨rest, position, depth, false⟩ : Tokenizer).behind token more := by
  cases rest with
  | nil => simp [next] at read
  | cons byte rest =>
    simp only [next, Bool.false_eq_true, if_false, accepted, cursor] at read
    split_ifs at read with isDict isList isClose outside isInt isOne
    · obtain ⟨rfl, rfl⟩ : token = .dictStart ∧ _ = after := by simpa [eq_comm] using read
      exact ⟨trivial, rest, by simp [Token.lexeme, isDict], rfl⟩
    · obtain ⟨rfl, rfl⟩ : token = .listStart ∧ _ = after := by simpa [eq_comm] using read
      exact ⟨trivial, rest, by simp [Token.lexeme, isList], rfl⟩
    · simp at read
    · obtain ⟨rfl, rfl⟩ : token = .close ∧ _ = after := by simpa [eq_comm] using read
      exact ⟨Nat.pos_of_ne_zero outside, rest, by simp [Token.lexeme, isClose], rfl⟩
    · split at read
      · next number c found =>
        obtain ⟨more, isRest, rfl⟩ := Cursor.signed_eq_ok_iff.mp found
        obtain ⟨rfl, rfl⟩ : token = .int number ∧ _ = after := by simpa [eq_comm] using read
        simp only at isRest
        refine ⟨trivial, more, by simp [Token.lexeme, isInt, isRest], ?_⟩
        simp only [behind, Token.lexeme, Token.level, List.length_cons, List.length_append, List.length_nil,
          mk.injEq, true_and, and_true]
        omega
      · simp at read
    · split at read
      · next content c found =>
        obtain ⟨short, more, isRest, rfl⟩ := Cursor.byteString_eq_ok_iff.mp found
        obtain ⟨rfl, rfl⟩ : token = .bytes content ∧ _ = after := by simpa [eq_comm] using read
        exact ⟨short, more, isRest, rfl⟩
      · simp at read
    · simp at read

/-- Where the lexeme of a token stands, the token is read. -/
theorem next_of_lexeme {position depth : Nat} {token : Token} (fits : token.Fits depth) (more : Bytes) :
    (⟨token.lexeme ++ more, position, depth, false⟩ : Tokenizer).next =
      (.ok (some token), (⟨token.lexeme ++ more, position, depth, false⟩ : Tokenizer).behind token more) := by
  cases token with
  | dictStart => rfl
  | listStart => rfl
  | close => simp [next, Token.lexeme, accepted, behind, Token.level, Nat.pos_iff_ne_zero.mp fits]
  | int number =>
    have found := Cursor.signed_eq_ok_iff.mpr
      ⟨more, (rfl : (⟨signed number ++ 101 :: more, position + 1⟩ : Cursor).rest = _), rfl⟩
    simp [next, Token.lexeme, accepted, behind, Token.level, found, Nat.add_right_comm, Nat.add_assoc]
    omega
  | bytes content =>
    obtain ⟨byte, text, isLexeme, isOne⟩ := Token.spellBytes_eq_cons fits
    have found := Cursor.byteString_eq_ok_iff.mpr
      ⟨fits, more, (rfl : (⟨spellBytes content ++ more, position⟩ : Cursor).rest = _), rfl⟩
    have range := isDigit_iff.mp isOne
    have other : ∀ marker : UInt8, 57 < marker.toNat → byte ≠ marker := by
      rintro marker above rfl
      omega
    rw [isLexeme, List.cons_append] at found
    simp only [next, Token.lexeme, isLexeme, List.cons_append, Bool.false_eq_true, if_false, cursor,
      other 100 (by decide), other 108 (by decide), other 101 (by decide), other 105 (by decide), isOne,
      if_true, found]
    rw [← isLexeme]
    rfl

/-- A token is read exactly where its lexeme stands. -/
theorem next_eq_some_iff {t after : Tokenizer} {token : Token} :
    t.next = (.ok (some token), after) ↔
      t.finished = false ∧ token.Fits t.depth ∧ ∃ more, t.rest = token.lexeme ++ more ∧ after = t.behind token more := by
  obtain ⟨rest, position, depth, finished⟩ := t
  constructor
  · intro read
    cases finished with
    | true => simp [next] at read
    | false => exact ⟨rfl, lexeme_of_next read⟩
  · rintro ⟨going, fits, more, isRest, rfl⟩
    simp only at going isRest
    rw [going, isRest]
    exact next_of_lexeme fits more

end Tokenizer

end PeerSubstrate.Bencode
