import Mathlib.Data.List.Basic
import PeerSubstrate.Text.Quoted
import PeerSubstrate.Text.Utf8
import PeerSubstrate.Proofs.Text.Numeral

/-!
# Printable text

Text that holds no byte but those of printable ASCII, the blank included: what is put together from such
text is such text, and so are decimal and hexadecimal digits and a byte string between quotes. Hexadecimal
digits and the text of ASCII bytes can be read back.
-/

namespace PeerSubstrate.Text

/-- Every byte that the text is written as is printable ASCII. -/
def Printable (text : String) : Prop := ∀ byte ∈ utf8 text, Quoted.isPrintable byte = true

instance (text : String) : Decidable (Printable text) := List.decidableBAll _ (utf8 text)

/-- A printable ASCII character, the blank included. -/
def PrintableChar (char : Char) : Prop := 0x20 ≤ char.toNat ∧ char.toNat ≤ 0x7e

private theorem isPrintable_iff {byte : UInt8} : Quoted.isPrintable byte = true ↔ 0x20 ≤ byte.toNat ∧ byte.toNat ≤ 0x7e := by
  simp [Quoted.isPrintable, UInt8.le_iff_toNat_le]

@[simp] theorem printable_append {one two : String} : Printable (one ++ two) ↔ Printable one ∧ Printable two := by
  simp [Printable, or_imp, forall_and]

/-- A printable character is one byte, and that is printable. -/
theorem printable_encoded {char : Char} (printable : PrintableChar char) :
    ∀ byte ∈ String.utf8EncodeChar char, Quoted.isPrintable byte = true := by
  obtain ⟨low, high⟩ := printable
  have single : String.utf8EncodeChar char = [UInt8.ofNat char.toNat] := by
    exact if_pos (Nat.le_trans high (by decide))
  rw [single, List.forall_mem_singleton, isPrintable_iff, UInt8.toNat_ofNat_of_lt' (by simp [UInt8.size]; omega)]
  exact ⟨low, high⟩

private theorem printable_ofList {chars : List Char} (printable : ∀ char ∈ chars, PrintableChar char) :
    Printable (String.ofList chars) := by
  intro byte member
  obtain ⟨char, inside, encoded⟩ : ∃ char ∈ chars, byte ∈ String.utf8EncodeChar char := by
    simpa [utf8, String.toByteArray_ofList, List.utf8Encode] using member
  exact printable_encoded (printable char inside) byte encoded

/-- Below the surrogates every number is a character. -/
theorem toNat_char {n : Nat} (low : n < 0xd800) : (Char.ofNat n).toNat = n := by
  rw [Char.ofNat, dif_pos (Or.inl low)]
  rfl

namespace Decimal

private theorem toNat_char_byte (byte : UInt8) : (Char.ofNat byte.toNat).toNat = byte.toNat :=
  toNat_char (Nat.lt_trans byte.toNat_lt (by decide))

theorem toText_injective {one two : List UInt8} (same : toText one = toText two) : one = two := by
  refine List.map_injective_iff.mpr ?_ (String.ofList_injective same)
  intro one two same
  have values := congrArg Char.toNat same
  rw [toNat_char_byte, toNat_char_byte] at values
  exact UInt8.toNat_inj.mp values

theorem printable_toText {bytes : List UInt8} (printable : ∀ byte ∈ bytes, Quoted.isPrintable byte = true) :
    Printable (toText bytes) := by
  apply printable_ofList
  intro char member
  obtain ⟨byte, inside, rfl⟩ := List.mem_map.mp member
  rw [PrintableChar, toNat_char_byte]
  exact isPrintable_iff.mp (printable byte inside)

private theorem isDigit_of_digitsWithin {byte : UInt8} (places : Nat) :
    ∀ n, byte ∈ digitsWithin places n → isDigit byte = true := by
  induction places with
  | zero => intro n member; simp [digitsWithin] at member
  | succ places ih =>
    intro n member
    rw [digitsWithin] at member
    split at member
    next small =>
      rw [List.mem_singleton.mp member]
      exact isDigit_digit small
    next =>
      rcases List.mem_append.mp member with higher | last
      · exact ih (n / 10) higher
      · rw [List.mem_singleton.mp last]
        exact isDigit_digit (Nat.mod_lt n (by decide))

private theorem isPrintable_of_isDigit {byte : UInt8} (isOne : isDigit byte = true) : Quoted.isPrintable byte = true := by
  have range := isDigit_iff.mp isOne
  exact isPrintable_iff.mpr ⟨by omega, by omega⟩

/-- A number is printed with digits and a minus sign. -/
theorem printable_signedText (n : Int64) : Printable (signedText n) := by
  apply printable_toText
  have digits : ∀ byte ∈ digits n.toInt.natAbs, Quoted.isPrintable byte = true := fun byte member =>
    isPrintable_of_isDigit (isDigit_of_digitsWithin 20 _ member)
  rw [signed]
  split
  · exact List.forall_mem_cons.mpr ⟨by decide, digits⟩
  · exact digits

end Decimal

namespace Hex

private theorem toNat_digit {n : Nat} (small : n < 16) : (digit n).toNat = if n < 10 then 48 + n else 87 + n := by
  rw [digit]
  split
  · exact toNat_char (by omega)
  · exact toNat_char (by omega)

private theorem printableChar_digit {n : Nat} (small : n < 16) : PrintableChar (digit n) := by
  rw [PrintableChar, toNat_digit small]
  split <;> omega

private theorem digit_injective {m n : Nat} (one : m < 16) (two : n < 16) (same : digit m = digit n) : m = n := by
  have values := congrArg Char.toNat same
  rw [toNat_digit one, toNat_digit two] at values
  split at values <;> split at values <;> omega

/-- The halves of a byte. -/
theorem halves (byte : UInt8) : byte.toNat / 16 < 16 ∧ byte.toNat % 16 < 16 := by
  have bound := byte.toNat_lt
  omega

/-- Two digits a byte, so each byte can be read back. -/
theorem digits_injective : ∀ {one two : List UInt8}, digits one = digits two → one = two
  | [], [], _ => rfl
  | [], _ :: _, same | _ :: _, [], same => by simp [digits, byteDigits] at same
  | a :: one, b :: two, same => by
    simp only [digits, List.flatMap_cons, byteDigits, List.cons_append, List.nil_append, List.cons.injEq] at same
    obtain ⟨high, low, others⟩ := same
    have high := digit_injective (halves a).1 (halves b).1 high
    have low := digit_injective (halves a).2 (halves b).2 low
    have first : a = b := UInt8.toNat_inj.mp (by omega)
    rw [first, digits_injective others]

theorem ofBytes_injective {one two : List UInt8} (same : ofBytes one = ofBytes two) : one = two :=
  digits_injective (String.ofList_injective same)

theorem printable_ofBytes (bytes : List UInt8) : Printable (ofBytes bytes) := by
  apply printable_ofList
  intro char member
  obtain ⟨byte, -, digit⟩ := List.mem_flatMap.mp member
  obtain rfl | rfl : char = Hex.digit (byte.toNat / 16) ∨ char = Hex.digit (byte.toNat % 16) := by
    simpa [byteDigits] using digit
  · exact printableChar_digit (halves byte).1
  · exact printableChar_digit (halves byte).2

end Hex

end PeerSubstrate.Text
