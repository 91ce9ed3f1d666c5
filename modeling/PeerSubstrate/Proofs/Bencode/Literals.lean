import PeerSubstrate.Proofs.Bencode.Capacity
import PeerSubstrate.Proofs.Bencode.Resumption

/-!
# Number literals

Every 64-bit number is printed within twenty places and read back. What stands between the marker of a number
and its end is judged by its digits alone (`verdict`), however many there are: the loop counts down in
a word of 64 bits, none of whose steps ever wraps (`digits_eq_words`), and the first of its checks that fails is
the one that the verdict names (`unsignedNumber_literal`). The literals that are accepted are those of the grammar
(`verdict_eq_ok_iff`).
-/

namespace PeerSubstrate

namespace Text.Decimal

/-- The digits of a number from the right into `places` places; `none` if there is no place left for one. -/
def fill : Nat → Nat → Option (List UInt8)
  | 0, _ => none
  | places + 1, n => if n < 10 then some [digit n] else (fill places (n / 10)).map (· ++ [digit (n % 10)])

private theorem fill_eq_some (places : Nat) : ∀ n, n < 10 ^ (places + 1) →
    fill (places + 1) n = some (digitsWithin (places + 1) n) := by
  induction places with
  | zero =>
    intro n small
    have small : n < 10 := by simpa using small
    rw [fill, digitsWithin, if_pos small, if_pos small]
  | succ places ih =>
    intro n small
    rw [fill, digitsWithin]
    by_cases single : n < 10
    · rw [if_pos single, if_pos single]
    · rw [if_neg single, if_neg single, ih (n / 10) (by rw [Nat.pow_succ] at small; omega), Option.map_some]

/-- Twenty places hold every number of 64 bits. -/
theorem fill_twenty {n : Nat} (small : n < 2 ^ 64) : fill 20 n = some (digits n) :=
  fill_eq_some 19 n (Nat.lt_trans small (by decide))

end Text.Decimal

namespace Bencode
open PeerSubstrate.Text.Decimal

namespace Cursor

/-- A digit more in a word of 64 bits, whose arithmetic wraps: `none` unless product and difference are exact. -/
def takeIn (total : Int64) (byte : UInt8) : Option Int64 :=
  let tens := total * 10
  let next := tens - Int64.ofNat (digitValue byte)
  if tens.toInt = total.toInt * 10 ∧ next.toInt = tens.toInt - digitValue byte then some next else none

/-- The digits of a number counted in a word of 64 bits, otherwise as `digits` counts them. -/
def words (stop : UInt8) (start : Nat) : Option UInt8 → Int64 → Bytes → Nat → Reading (Option Int64)
  | _, _, [], position => (.error ⟨position, .unexpectedEnd⟩, ⟨[], position⟩)
  | first, total, byte :: rest, position =>
    let here : Cursor := ⟨byte :: rest, position⟩
    if byte = stop then (.ok (first.map fun _ => total), here)
    else if !isDigit byte then (.error ⟨position, .unexpectedByte byte⟩, here)
    else if first = some 48 then (.error ⟨start, .leadingZero⟩, here)
    else match takeIn total byte with
    | none => (.error ⟨start, .integerOverflow⟩, here)
    | some next => words stop start (first.or (some byte)) next rest (position + 1)

/-- A product or a difference of words is the exact one where that is in range. -/
theorem toInt_of_inRange {exact : Int} (low : -2 ^ 63 ≤ exact) (high : exact < 2 ^ 63) : exact.bmod (2 ^ 64) = exact :=
  Int.bmod_eq_of_le (by omega) (by omega)

/-- A digit is taken in if and only if the number stays above the least one. -/
theorem takeIn_eq {total : Int64} {byte : UInt8} (low : total.toInt ≤ 0) (isOne : isDigit byte = true) :
    takeIn total byte = if total.toInt * 10 - digitValue byte < Int64.minValue.toInt then none
      else some (Int64.ofInt (total.toInt * 10 - digitValue byte)) := by
  have small := digitValue_lt isOne
  have digit : (Int64.ofNat (digitValue byte)).toInt = digitValue byte := Int64.toInt_ofNat_of_lt (by omega)
  rw [takeIn, Int64.toInt_minValue]
  by_cases fits : total.toInt * 10 - digitValue byte < -2 ^ 63
  · rw [if_pos fits, if_neg]
    -- Both steps cannot be exact, because the difference has left the range.
    rintro ⟨tens, next⟩
    have inRange := (total * 10 - Int64.ofNat (digitValue byte)).le_toInt
    omega
  · have tens : (total * 10).toInt = total.toInt * 10 := by
      rw [Int64.toInt_mul]
      exact toInt_of_inRange (by simp; omega) (by simp; omega)
    have next : (total * 10 - Int64.ofNat (digitValue byte)).toInt = total.toInt * 10 - digitValue byte := by
      rw [Int64.toInt_sub, tens, digit]
      exact toInt_of_inRange (by omega) (by omega)
    rw [if_neg fits, if_pos ⟨tens, by rw [next, tens]⟩, ← next, Int64.ofInt_toInt]

/-- What was read in a word, as the number that the word holds. -/
def exactly (reading : Reading (Option Int64)) : Reading (Option Int) := (reading.1.map (Option.map Int64.toInt), reading.2)

/-- The total stays in its word: at or below zero, it is counted exactly or refused. -/
theorem digits_eq_words {stop : UInt8} {start : Nat} {rest : Bytes} :
    ∀ {first : Option UInt8} {total : Int64} {position : Nat}, total.toInt ≤ 0 →
      digits stop start first total.toInt rest position = exactly (words stop start first total rest position) := by
  induction rest with
  | nil => intros; rfl
  | cons byte rest ih =>
    intro first total position low
    rw [digits, words]
    by_cases atStop : byte = stop
    · simp [atStop, exactly, Except.map, Function.comp_def]
    · by_cases isOne : isDigit byte = true
      · have taken := takeIn_eq low isOne
        by_cases zero : first = some 48
        · simp [atStop, isOne, zero, exactly, Except.map]
        · by_cases fits : total.toInt * 10 - digitValue byte < Int64.minValue.toInt
          · rw [if_pos fits] at taken
            simp only [atStop, isOne, zero, fits, taken, if_false, if_true, Bool.not_true, Bool.false_eq_true]
            rfl
          · rw [if_neg fits] at taken
            rw [Int64.toInt_minValue] at fits
            have next : (Int64.ofInt (total.toInt * 10 - digitValue byte)).toInt = total.toInt * 10 - digitValue byte :=
              Int64.toInt_ofInt_of_le (by omega) (by omega)
            have goesOn := @ih (first.or (some byte)) (Int64.ofInt (total.toInt * 10 - digitValue byte)) (position + 1)
              (by omega)
            rw [next] at goesOn
            simp only [atStop, isOne, zero, taken, goesOn, Int64.toInt_minValue, fits, if_false, Bool.not_true,
              Bool.false_eq_true]
      · simp [atStop, isOne, exactly, Except.map]

/-! ## The verdict on a literal -/

/-- The sign in front of a number. -/
def signOf (negative : Bool) : Bytes := if negative then [45] else []

/-- A number behind a sign. -/
def behindSign (negative : Bool) (n : Nat) : Int := if negative then -(n : Int) else n

/-- What is to be said of the digits between a sign and the end of a number. -/
def verdict (negative : Bool) (text : Bytes) : Except DecodeError.Kind Int64 :=
  if text = [] then .error .emptyNumber
  else if text.head? = some 48 ∧ 1 < text.length then .error .leadingZero
  else if negative = true ∧ text = [48] then .error .negativeZero
  else
    let number := behindSign negative (ofDigits text)
    if -2 ^ 63 ≤ number ∧ number ≤ 2 ^ 63 - 1 then .ok (Int64.ofInt number) else .error .integerOverflow

section
variable {stop first : UInt8} {start position : Nat} {negative : Bool} {text more : Bytes}

/-- Digits without a leading zero are the numeral of their number. -/
theorem numeral_of_digits (areDigits : ∀ byte ∈ text, isDigit byte = true) (some : text ≠ [])
    (canonical : ¬ (text.head? = .some 48 ∧ 1 < text.length)) : Numeral text (ofDigits text) := by
  refine ⟨some, areDigits, fun zero => ?_, rfl⟩
  have several : ¬ 1 < text.length := fun more => canonical ⟨zero, more⟩
  have := List.length_pos_iff.mpr some
  omega

/-- Behind a first digit that is not a zero, digits of a number beyond the least one are refused. -/
theorem digits_tooLarge (noDigit : isDigit stop = false) (nonzero : first ≠ 48) : ∀ {n position : Nat},
    (∀ byte ∈ text, isDigit byte = true) → n ≤ 2 ^ 63 → 2 ^ 63 < extend n text →
      (digits stop start (some first) (-(n : Int)) (text ++ more) position).1 = .error ⟨start, .integerOverflow⟩ := by
  induction text with
  | nil =>
    intro n position _ fits large
    exact absurd large (Nat.not_lt.mpr fits)
  | cons byte text ih =>
    intro n position areDigits _ large
    obtain ⟨isOne, others⟩ := List.forall_mem_cons.mp areDigits
    have goesOn : byte ≠ stop := by rintro rfl; simp [isOne] at noDigit
    rw [extend_cons] at large
    by_cases fits : 10 * n + digitValue byte ≤ 2 ^ 63
    · rw [List.cons_append, digits_cons start _ _ goesOn isOne (by simpa using nonzero) fits, Option.some_or]
      exact ih others fits large
    · rw [List.cons_append, digits_overflow start _ _ goesOn isOne (by simpa using nonzero) (by omega)]

/-- The verdict on a numeral depends on its number only. -/
theorem verdict_of_numeral {n : Nat} (numeral : Numeral text n) : verdict negative text =
    if negative = true ∧ n = 0 then .error .negativeZero
    else if -2 ^ 63 ≤ behindSign negative n ∧ behindSign negative n ≤ 2 ^ 63 - 1 then
      .ok (Int64.ofInt (behindSign negative n))
    else .error .integerOverflow := by
  have canonical : ¬ (text.head? = some 48 ∧ 1 < text.length) := by
    rintro ⟨zero, several⟩
    have := numeral.noLeadingZero zero
    omega
  have isZero : text = [48] ↔ n = 0 := by
    have zero : Numeral [48] 0 := @numeral_singleton 48 (by decide)
    exact ⟨fun same => (same ▸ numeral.ofDigits_eq).symm, fun same => numeral_unique (same ▸ numeral) zero⟩
  rw [verdict, if_neg numeral.nonempty, if_neg canonical, numeral.ofDigits_eq]
  simp only [isZero]

private theorem withSign_eq_verdict {n : Nat} (numeral : Numeral text n) (fits : n ≤ 2 ^ 63) :
    withSign negative start (-(n : Int)) = (verdict negative text).mapError (⟨start, ·⟩) := by
  rw [verdict_of_numeral numeral]
  cases negative with
  | true =>
    have inRange : -2 ^ 63 ≤ -(n : Int) ∧ -(n : Int) ≤ 2 ^ 63 - 1 := by omega
    by_cases zero : n = 0
    · simp [withSign, zero, Except.mapError]
    · simp only [withSign, behindSign, zero, inRange, if_true, if_false, and_false, and_self, Int.neg_eq_zero,
        Int.natCast_eq_zero]
      rfl
  | false =>
    by_cases large : n = 2 ^ 63
    · simp [withSign, behindSign, large, Except.mapError, Int64.toInt_maxValue]
    · have inRange : -2 ^ 63 ≤ (n : Int) ∧ (n : Int) ≤ 2 ^ 63 - 1 := by omega
      have below : ¬ (n : Int) > 2 ^ 63 - 1 := by omega
      simp only [withSign, behindSign, below, inRange, Int.neg_neg, Int64.toInt_maxValue, if_true, if_false, false_and,
        Bool.false_eq_true, and_self]
      rfl

private theorem verdict_tooLarge {n : Nat} (numeral : Numeral text n) (large : 2 ^ 63 < n) :
    verdict negative text = .error .integerOverflow := by
  have outOfRange : ¬ (-2 ^ 63 ≤ behindSign negative n ∧ behindSign negative n ≤ 2 ^ 63 - 1) := by
    rw [behindSign]
    split <;> omega
  rw [verdict_of_numeral numeral, if_neg (by omega), if_neg outOfRange]

/-- The first of the checks that fails is the one that the verdict names. -/
theorem unsignedNumber_literal (noDigit : isDigit stop = false) (areDigits : ∀ byte ∈ text, isDigit byte = true) :
    (unsignedNumber stop negative start ⟨text ++ stop :: more, position⟩).1 =
      (verdict negative text).mapError (⟨start, ·⟩) := by
  have another : ∀ byte : UInt8, isDigit byte = true → byte ≠ stop := by
    rintro byte isOne rfl
    simp [isOne] at noDigit
  cases text with
  | nil => simp [unsignedNumber, digits_stop, verdict, Except.mapError]
  | cons byte text =>
    obtain ⟨isOne, others⟩ := List.forall_mem_cons.mp areDigits
    have small := digitValue_lt isOne
    have begins : ∀ rest, digits stop start none 0 (byte :: rest) position =
        digits stop start (some byte) (-(digitValue byte : Int)) rest (position + 1) := by
      intro rest
      have taken := @digits_cons stop byte none 0 start rest position (another byte isOne) isOne (by simp) (by omega)
      simpa using taken
    by_cases leading : (byte :: text).head? = some 48 ∧ 1 < (byte :: text).length
    · rw [verdict, if_neg (List.cons_ne_nil _ _), if_pos leading]
      obtain ⟨isZero, several⟩ := leading
      obtain rfl : byte = 48 := by simpa using isZero
      obtain ⟨digit, text, rfl⟩ := List.exists_cons_of_ne_nil (List.length_pos_iff.mp (Nat.lt_of_succ_lt_succ several))
      have isDigit := others digit (List.mem_cons_self ..)
      rw [unsignedNumber, List.cons_append, begins, List.cons_append, digits]
      simp [another digit isDigit, isDigit, Except.mapError]
    · have numeral := numeral_of_digits areDigits (List.cons_ne_nil _ _) leading
      by_cases fits : ofDigits (byte :: text) ≤ 2 ^ 63
      · rw [← withSign_eq_verdict numeral fits, unsignedNumber,
          (digits_none_iff noDigit).mpr ⟨byte :: text, _, more, rfl, numeral, fits, rfl, rfl⟩]
      · have beyond : 2 ^ 63 < extend (digitValue byte) text := by
          rw [ofDigits, extend_cons, Nat.mul_zero, Nat.zero_add] at fits
          omega
        have nonzero : byte ≠ 48 := by
          rintro rfl
          have single : text = [] := by simpa using leading
          subst single
          simp [extend, digitValue] at beyond
        have refused : (digits stop start none 0 (byte :: text ++ stop :: more) position).1 =
            .error ⟨start, .integerOverflow⟩ := by
          rw [List.cons_append, begins]
          exact digits_tooLarge noDigit nonzero others (by omega) beyond
        rw [verdict_tooLarge numeral (by omega), unsignedNumber]
        split
        · next read => rw [read] at refused; exact congrArg Except.error (Except.error.inj refused)
        · next read => rw [read] at refused; cases refused
        · next read => rw [read] at refused; cases refused

/-- A sign and digits are a literal if the digits are a numeral, and not that of a zero behind a minus sign. -/
theorem integer_of_sign_iff (areDigits : ∀ byte ∈ text, isDigit byte = true) {number : Int64} :
    Integer (signOf negative ++ text) number ↔
      ∃ n, Numeral text n ∧ (negative = true → 0 < n) ∧ number.toInt = behindSign negative n := by
  cases negative with
  | true =>
    constructor
    · intro literal
      cases literal with
      | unsigned numeral _ => exact absurd (numeral.digits 45 (List.mem_cons_self ..)) (by decide)
      | negative numeral positive same => exact ⟨_, numeral, fun _ => positive, same⟩
    · rintro ⟨n, numeral, positive, same⟩
      exact .negative numeral (positive rfl) same
  | false =>
    constructor
    · intro literal
      generalize isText : signOf false ++ text = found at literal
      obtain rfl : text = found := isText
      cases literal with
      | unsigned numeral same => exact ⟨_, numeral, fun minus => absurd minus (by decide), same⟩
      | negative _ _ _ => exact absurd (areDigits 45 (List.mem_cons_self ..)) (by decide)
    · rintro ⟨n, numeral, -, same⟩
      exact .unsigned numeral same

/-- What is accepted are the literals of the grammar. -/
theorem verdict_eq_ok_iff (areDigits : ∀ byte ∈ text, isDigit byte = true) {number : Int64} :
    verdict negative text = .ok number ↔ Integer (signOf negative ++ text) number := by
  have low := number.le_toInt
  have high := number.toInt_lt
  rw [integer_of_sign_iff areDigits]
  constructor
  · intro accepted
    have notEmpty : text ≠ [] := by
      rintro rfl
      simp [verdict] at accepted
    have canonical : ¬ (text.head? = some 48 ∧ 1 < text.length) := by
      intro leading
      rw [verdict, if_neg notEmpty, if_pos leading] at accepted
      cases accepted
    have numeral := numeral_of_digits areDigits notEmpty canonical
    rw [verdict_of_numeral numeral] at accepted
    split at accepted
    next => cases accepted
    next zero =>
      split at accepted
      next inRange =>
        refine ⟨_, numeral, fun minus => Nat.pos_of_ne_zero fun isZero => zero ⟨minus, isZero⟩, ?_⟩
        rw [← Except.ok.inj accepted, Int64.toInt_ofInt_of_le inRange.1 (by omega)]
      next => cases accepted
  · rintro ⟨n, numeral, positive, same⟩
    rw [verdict_of_numeral numeral, ← same, if_neg, if_pos ⟨low, by omega⟩, Int64.ofInt_toInt]
    rintro ⟨minus, zero⟩
    exact absurd (positive minus) (by omega)

/-- Behind its marker a number is judged by its sign and its digits. -/
theorem signed_literal (areDigits : ∀ byte ∈ text, isDigit byte = true) :
    (number 101 true ⟨signOf negative ++ (text ++ 101 :: more), position⟩).1 =
      (verdict negative text).mapError (⟨position, ·⟩) := by
  cases negative with
  | true => exact unsignedNumber_literal (by decide) areDigits
  | false =>
    have unsigned : number 101 true ⟨text ++ 101 :: more, position⟩ =
        unsignedNumber 101 false position ⟨text ++ 101 :: more, position⟩ := by
      cases text with
      | nil => simp [number]
      | cons byte text =>
        have noMinus : byte ≠ 45 := by
          rintro rfl
          exact absurd (areDigits 45 (List.mem_cons_self ..)) (by decide)
        simp [number, noMinus]
    exact (congrArg Prod.fst unsigned).trans (unsignedNumber_literal (by decide) areDigits)

/-- A length has no sign and is judged by its digits. -/
theorem length_literal (areDigits : ∀ byte ∈ text, isDigit byte = true) :
    (number 58 false ⟨text ++ 58 :: more, position⟩).1 = (verdict false text).mapError (⟨position, ·⟩) :=
  unsignedNumber_literal (by decide) areDigits

end

end Cursor

/-! ## Writing and reading -/

section
variable (n : Int64)

private theorem write_int {e : Encoder} (fits : e.length + (signed n).length + 2 ≤ e.capacity) :
    Write.int n e = (.ok (), e.append (105 :: (signed n ++ [101]))) := by
  refine Write.raw_of_fits ?_
  simp only [List.length_cons, List.length_append, List.length_nil]
  omega

private theorem next_of_signed (more : Bytes) (position depth : Nat) :
    (⟨105 :: (signed n ++ 101 :: more), position, depth, false⟩ : Tokenizer).next =
      (.ok (some (.int n)), ⟨more, position + (signed n).length + 2, depth, depth == 0⟩) := by
  have read := @Tokenizer.next_of_lexeme position depth (.int n) trivial more
  simpa [Token.lexeme, Tokenizer.behind, Token.level, Nat.add_assoc] using read

end

/-- Numbers are written and read exactly. A number is written as its literal, into twenty places, and read back; and
of every literal, a length included, the digits decide what it is read as, and which error it is. -/
theorem literals_exact :
    (∀ (n : Int64) (e : Encoder), e.length + (signed n).length + 2 ≤ e.capacity →
      Write.int n e = (.ok (), e.append (105 :: (signed n ++ [101])))) ∧
    (∀ n : Int64, Integer (signed n) n ∧ fill 20 n.toInt.natAbs = some (digits n.toInt.natAbs)) ∧
    (∀ (n : Int64) (more : Bytes) (position depth : Nat),
      (⟨105 :: (signed n ++ 101 :: more), position, depth, false⟩ : Tokenizer).next =
        (.ok (some (.int n)), ⟨more, position + (signed n).length + 2, depth, depth == 0⟩)) ∧
    (∀ (negative : Bool) (text more : Bytes) (position : Nat), (∀ byte ∈ text, isDigit byte = true) →
      (Cursor.number 101 true ⟨Cursor.signOf negative ++ (text ++ 101 :: more), position⟩).1 =
        (Cursor.verdict negative text).mapError (⟨position, ·⟩)) ∧
    (∀ (text more : Bytes) (position : Nat), (∀ byte ∈ text, isDigit byte = true) →
      (Cursor.number 58 false ⟨text ++ 58 :: more, position⟩).1 =
        (Cursor.verdict false text).mapError (⟨position, ·⟩)) ∧
    (∀ (negative : Bool) (text : Bytes) (number : Int64), (∀ byte ∈ text, isDigit byte = true) →
      (Cursor.verdict negative text = .ok number ↔ Integer (Cursor.signOf negative ++ text) number)) ∧
    (∀ (c after : Cursor) (length : Int64), Cursor.number 58 false c = (.ok length, after) → 0 ≤ length.toInt) ∧
    ∀ (stop : UInt8) (start : Nat) (rest : Bytes) (position : Nat), Cursor.digits stop start none 0 rest position =
      Cursor.exactly (Cursor.words stop start none 0 rest position) := by
  refine ⟨fun n _ => write_int n, fun n => ⟨integer_iff_signed.mpr rfl, ?_⟩, next_of_signed,
    fun _ _ _ _ => Cursor.signed_literal, fun _ _ _ => Cursor.length_literal,
    fun _ _ _ areDigits => Cursor.verdict_eq_ok_iff areDigits, fun _ _ _ => Cursor.length_nonneg,
    fun stop start rest position => ?_⟩
  · have low := n.le_toInt
    have high := n.toInt_lt
    exact fill_twenty (by omega)
  · exact @Cursor.digits_eq_words stop start rest none 0 position (Int.le_refl 0)

/-- The digits of the number that is furthest from zero. -/
def leastDigits : Bytes := digits (2 ^ 63)

/-- The least number is read, the same digits without the sign are not, and neither is a number below the least. -/
theorem least_number_read :
    (Cursor.number 101 true ⟨45 :: (leastDigits ++ [101]), 1⟩).1 = .ok Int64.minValue ∧
      (Cursor.number 101 true ⟨leastDigits ++ [101], 1⟩).1 = .error ⟨1, .integerOverflow⟩ ∧
      (Cursor.number 101 true ⟨45 :: (leastDigits ++ [48, 101]), 1⟩).1 = .error ⟨1, .integerOverflow⟩ := by
  have literal := literals_exact.2.2.2.1
  have areDigits : ∀ byte ∈ leastDigits, isDigit byte = true := (digits_numeral (by decide)).digits
  have longer : ∀ byte ∈ leastDigits ++ [48], isDigit byte = true :=
    List.forall_mem_append.mpr ⟨areDigits, List.forall_mem_singleton.mpr rfl⟩
  refine ⟨(literal true leastDigits [] 1 areDigits).trans ?_, (literal false leastDigits [] 1 areDigits).trans ?_,
    (literal true (leastDigits ++ [48]) [] 1 longer).trans ?_⟩
  all_goals decide +kernel

end Bencode

end PeerSubstrate
