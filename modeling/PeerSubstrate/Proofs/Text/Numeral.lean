import Mathlib.Algebra.Group.Int.Defs
import Mathlib.Algebra.Group.Nat.Defs
import Mathlib.Data.List.Basic
import Mathlib.Data.List.Induction
import PeerSubstrate.Text.Decimal

/-!
# Numerals

How a natural number may be written, said without the printer: digits, at least one of them, and no
zero in front of another digit. Every number has one numeral (`numeral_unique`), and below 10^20 that
is the one the printer writes (`numeral_iff_digits`).
-/

namespace PeerSubstrate.Text.Decimal

/-- The number `n` with more digits behind it. -/
def extend (n : Nat) (text : List UInt8) : Nat := text.foldl (fun n byte => 10 * n + digitValue byte) n

/-- The number that digits stand for. -/
def ofDigits (text : List UInt8) : Nat := extend 0 text

/-- `text` is the decimal numeral of `n`. -/
structure Numeral (text : List UInt8) (n : Nat) : Prop where
  nonempty : text ≠ []
  digits : ∀ byte ∈ text, isDigit byte = true
  noLeadingZero : text.head? = some 48 → text.length = 1
  ofDigits_eq : ofDigits text = n

theorem isDigit_iff {byte : UInt8} : isDigit byte = true ↔ 48 ≤ byte.toNat ∧ byte.toNat ≤ 57 := by
  simp [isDigit, UInt8.le_iff_toNat_le]

private theorem toNat_digit {n : Nat} (small : n < 10) : (digit n).toNat = 48 + n := by
  simp only [digit, UInt8.toNat_ofNat']
  omega

theorem isDigit_digit {n : Nat} (small : n < 10) : isDigit (digit n) = true := by
  have value := toNat_digit small
  exact isDigit_iff.mpr ⟨by omega, by omega⟩

private theorem digitValue_digit {n : Nat} (small : n < 10) : digitValue (digit n) = n := by
  have value := toNat_digit small
  simp only [digitValue]
  omega

theorem digitValue_lt {byte : UInt8} (isOne : isDigit byte = true) : digitValue byte < 10 := by
  have range := isDigit_iff.mp isOne
  simp only [digitValue]
  omega

private theorem digit_digitValue {byte : UInt8} (isOne : isDigit byte = true) : digit (digitValue byte) = byte := by
  have range := isDigit_iff.mp isOne
  apply UInt8.toNat_inj.mp
  rw [toNat_digit (digitValue_lt isOne)]
  simp only [digitValue]
  omega

private theorem digitValue_eq_zero {byte : UInt8} (isOne : isDigit byte = true) :
    digitValue byte = 0 ↔ byte = 48 := by
  have range := isDigit_iff.mp isOne
  rw [← UInt8.toNat_inj]
  simp only [digitValue, UInt8.reduceToNat]
  omega

private theorem ofDigits_concat (text : List UInt8) (byte : UInt8) :
    ofDigits (text ++ [byte]) = 10 * ofDigits text + digitValue byte := by
  simp [ofDigits, extend]

@[simp] theorem ofDigits_singleton (byte : UInt8) : ofDigits [byte] = digitValue byte := by
  simp [ofDigits, extend]

theorem extend_cons (n : Nat) (byte : UInt8) (text : List UInt8) :
    extend n (byte :: text) = extend (10 * n + digitValue byte) text := by
  simp only [extend, List.foldl_cons]

theorem le_extend (n : Nat) (text : List UInt8) : n ≤ extend n text := by
  induction text generalizing n with
  | nil => exact Nat.le_refl n
  | cons byte text ih =>
    have grown := ih (10 * n + digitValue byte)
    rw [extend_cons]
    omega

theorem numeral_singleton {byte : UInt8} (isOne : isDigit byte = true) :
    Numeral [byte] (digitValue byte) :=
  ⟨by simp, by simpa using isOne, by simp, by simp⟩

/-- A numeral of something else than zero grows by a digit at its end. -/
theorem Numeral.concat {text : List UInt8} {n : Nat} (numeral : Numeral text n) (positive : 0 < n)
    {byte : UInt8} (isOne : isDigit byte = true) :
    Numeral (text ++ [byte]) (10 * n + digitValue byte) := by
  refine ⟨by simp, ?_, ?_, ?_⟩
  · intro b member
    rcases List.mem_append.mp member with inside | last
    · exact numeral.digits b inside
    · rw [List.mem_singleton.mp last]
      exact isOne
  · intro zero
    rw [List.head?_append_of_ne_nil _ numeral.nonempty] at zero
    -- A numeral that begins with a zero has no other digit, and its number is zero.
    have single := numeral.noLeadingZero zero
    obtain ⟨only, rfl⟩ := List.length_eq_one_iff.mp single
    have isZero : only = 48 := by simpa using zero
    have none := numeral.ofDigits_eq
    rw [ofDigits_singleton, isZero] at none
    exact absurd (none.symm.trans (by decide)) (Nat.pos_iff_ne_zero.mp positive)
  · rw [ofDigits_concat, numeral.ofDigits_eq]

/-- A numeral of several digits is a numeral of something else than zero with a digit behind it. -/
theorem Numeral.of_concat {text : List UInt8} {n : Nat} {byte : UInt8}
    (numeral : Numeral (text ++ [byte]) n) (several : text ≠ []) :
    Numeral text (ofDigits text) ∧ 0 < ofDigits text := by
  have first : text.head? ≠ some 48 := by
    intro zero
    have single := numeral.noLeadingZero (by rw [List.head?_append_of_ne_nil _ several]; exact zero)
    have := List.length_pos_iff.mpr several
    simp only [List.length_append, List.length_singleton] at single
    omega
  have digits : ∀ b ∈ text, isDigit b = true := fun b member =>
    numeral.digits b (List.mem_append_left _ member)
  refine ⟨⟨several, digits, fun zero => absurd zero first, rfl⟩, ?_⟩
  clear numeral
  induction text using List.reverseRecOn with
  | nil => exact absurd rfl several
  | append_singleton init last ih =>
    rw [ofDigits_concat]
    by_cases short : init = []
    · subst short
      have nonzero : digitValue last ≠ 0 := by
        rw [ne_eq, digitValue_eq_zero (digits last (by simp))]
        simpa using first
      omega
    · have := ih short (by rwa [List.head?_append_of_ne_nil _ short] at first)
        (fun b member => digits b (List.mem_append_left _ member))
      omega

private theorem digitsWithin_numeral (places : Nat) :
    ∀ n, n < 10 ^ (places + 1) → Numeral (digitsWithin (places + 1) n) n := by
  induction places with
  | zero =>
    intro n small
    have small : n < 10 := by simpa using small
    rw [digitsWithin, if_pos small]
    simpa [digitValue_digit small] using numeral_singleton (isDigit_digit small)
  | succ places ih =>
    intro n small
    rw [digitsWithin]
    by_cases single : n < 10
    · rw [if_pos single]
      simpa [digitValue_digit single] using numeral_singleton (isDigit_digit single)
    · rw [if_neg single]
      have higher := ih (n / 10) (by rw [Nat.pow_succ] at small; omega)
      have last : n % 10 < 10 := Nat.mod_lt _ (by decide)
      have grown := higher.concat (by omega) (isDigit_digit last)
      rw [digitValue_digit last] at grown
      simpa only [Nat.div_add_mod] using grown

/-- Printing gives a numeral back, if it has the places. -/
theorem digitsWithin_of_numeral {text : List UInt8} :
    ∀ {n places : Nat}, Numeral text n → text.length ≤ places → digitsWithin places n = text := by
  induction text using List.reverseRecOn with
  | nil => intro n places numeral _; exact absurd rfl numeral.nonempty
  | append_singleton init last ih =>
    intro n places numeral room
    have lastDigit : isDigit last = true := numeral.digits last (by simp)
    have small := digitValue_lt lastDigit
    have total := numeral.ofDigits_eq
    rw [ofDigits_concat] at total
    obtain ⟨rest, rfl⟩ : ∃ rest, places = rest + 1 :=
      ⟨places - 1, by simp only [List.length_append, List.length_singleton] at room; omega⟩
    by_cases single : init = []
    · subst single
      have same : n = digitValue last := by simpa using numeral.ofDigits_eq.symm
      rw [digitsWithin, if_pos (by omega), same, digit_digitValue lastDigit]
      rfl
    · obtain ⟨higher, positive⟩ := numeral.of_concat single
      have tens : n / 10 = ofDigits init := by omega
      have ones : n % 10 = digitValue last := by omega
      rw [digitsWithin, if_neg (by omega), tens, ones, digit_digitValue lastDigit,
        ih higher (by simp only [List.length_append, List.length_singleton] at room; omega)]

/-- A number is written in one way. -/
theorem numeral_unique {text other : List UInt8} {n : Nat} (one : Numeral text n) (two : Numeral other n) :
    text = other := by
  rw [← digitsWithin_of_numeral one (Nat.le_max_left text.length other.length),
    digitsWithin_of_numeral two (Nat.le_max_right text.length other.length)]

theorem digits_numeral {n : Nat} (small : n < 10 ^ 20) : Numeral (digits n) n :=
  digitsWithin_numeral 19 n small

/-- Below 10^20 the numeral is what is printed. -/
theorem numeral_iff_digits {text : List UInt8} {n : Nat} (small : n < 10 ^ 20) :
    Numeral text n ↔ text = digits n := by
  constructor
  · intro numeral
    exact numeral_unique numeral (digits_numeral small)
  · rintro rfl
    exact digits_numeral small

end PeerSubstrate.Text.Decimal
