import PeerSubstrate.Proofs.Bencode.Lexeme
import PeerSubstrate.Proofs.Bencode.Writing

/-!
# The text of a value ends where it ends

No text of a value goes on as the text of another one (`Value.spell_append_inj`): which token stands first
decides what kind of value it is, and the closing marker of a container cannot be taken for another item.
Hence the encodings of values, of any depth, are a prefix code (`encode_append_inj`).
-/

namespace PeerSubstrate.Bencode

/-- What stands first in a text can be told from all else that could stand there. -/
theorem Token.lexeme_append_inj {one two : Token} {more others : Bytes} (fitsOne : one.Fits 1) (fitsTwo : two.Fits 1)
    (same : one.lexeme ++ more = two.lexeme ++ others) : one = two ∧ more = others := by
  have readOne := @Tokenizer.next_of_lexeme 0 1 one fitsOne more
  have readTwo := @Tokenizer.next_of_lexeme 0 1 two fitsTwo others
  rw [same, readTwo] at readOne
  obtain ⟨isToken, isRest⟩ := Prod.mk.inj readOne
  exact ⟨(Option.some.inj (Except.ok.inj isToken)).symm, (congrArg Tokenizer.rest isRest).symm⟩

namespace Value

/-- The token with which the text of a value begins. -/
def firstToken : Value → Token
  | .int number => .int number
  | .bytes content => .bytes content
  | .list _ => .listStart
  | .dict _ => .dictStart

/-- What follows it. -/
def behindFirst : Value → Bytes
  | .int _ | .bytes _ => []
  | .list items => spellItems items ++ [101]
  | .dict entries => spellEntries entries ++ [101]

private theorem spell_eq_firstToken (value : Value) : value.spell = value.firstToken.lexeme ++ value.behindFirst := by
  cases value with
  | int | bytes => exact (List.append_nil _).symm
  | list | dict => rfl

private theorem firstToken_fits {value : Value} (short : value.Short) (depth : Nat) : value.firstToken.Fits depth := by
  cases value with
  | bytes => exact short
  | int | list | dict => trivial

/-- No value begins as a container ends. -/
theorem spell_append_ne_close {value : Value} (short : value.Short) {more others : Bytes} :
    value.spell ++ more ≠ 101 :: others := by
  intro same
  rw [spell_eq_firstToken, List.append_assoc] at same
  have isClose := (@Token.lexeme_append_inj _ .close _ _ (firstToken_fits short 1) Nat.one_pos same).1
  cases value <;> cases isClose

private theorem spellBytes_append_ne_close {content : Bytes} (short : content.length < 2 ^ 63) {more others : Bytes} :
    spellBytes content ++ more ≠ 101 :: others := @spell_append_ne_close (.bytes content) short more others

mutual
theorem spell_append_inj : ∀ {one two : Value} {more others : Bytes}, one.Short → two.Short →
    one.spell ++ more = two.spell ++ others → one = two ∧ more = others := by
  intro one two more others shortOne shortTwo same
  rw [spell_eq_firstToken one, spell_eq_firstToken two, List.append_assoc, List.append_assoc] at same
  obtain ⟨isFirst, behind⟩ :=
    Token.lexeme_append_inj (firstToken_fits shortOne 1) (firstToken_fits shortTwo 1) same
  clear same
  cases one with
  | int number =>
    cases two <;> cases isFirst
    exact ⟨rfl, behind⟩
  | bytes content =>
    cases two <;> cases isFirst
    exact ⟨rfl, behind⟩
  | list items =>
    cases two <;> cases isFirst
    simp only [behindFirst, List.append_assoc, List.singleton_append] at behind
    obtain ⟨rfl, isRest⟩ := spellItems_append_inj shortOne shortTwo behind
    exact ⟨rfl, isRest⟩
  | dict entries =>
    cases two <;> cases isFirst
    simp only [behindFirst, List.append_assoc, List.singleton_append] at behind
    obtain ⟨rfl, isRest⟩ := spellEntries_append_inj shortOne shortTwo behind
    exact ⟨rfl, isRest⟩
theorem spellItems_append_inj : ∀ {one two : List Value} {more others : Bytes}, ShortItems one → ShortItems two →
    spellItems one ++ 101 :: more = spellItems two ++ 101 :: others → one = two ∧ more = others
  | [], [], _, _, _, _, same => ⟨rfl, (List.cons.inj same).2⟩
  | [], item :: items, more, others, _, short, same => by
    simp only [spellItems, List.nil_append, List.append_assoc] at same
    exact absurd same.symm (spell_append_ne_close short.1)
  | item :: items, [], more, others, short, _, same => by
    simp only [spellItems, List.nil_append, List.append_assoc] at same
    exact absurd same (spell_append_ne_close short.1)
  | item :: items, item' :: items', more, others, shortOne, shortTwo, same => by
    rw [spellItems, spellItems, List.append_assoc, List.append_assoc] at same
    obtain ⟨rfl, behindItem⟩ := spell_append_inj shortOne.1 shortTwo.1 same
    obtain ⟨rfl, isRest⟩ := spellItems_append_inj shortOne.2 shortTwo.2 behindItem
    exact ⟨rfl, isRest⟩
theorem spellEntries_append_inj : ∀ {one two : List (Bytes × Value)} {more others : Bytes}, ShortEntries one →
    ShortEntries two → spellEntries one ++ 101 :: more = spellEntries two ++ 101 :: others → one = two ∧ more = others
  | [], [], _, _, _, _, same => ⟨rfl, (List.cons.inj same).2⟩
  | [], (key, value) :: entries, more, others, _, short, same => by
    simp only [spellEntries, List.nil_append, List.append_assoc] at same
    exact absurd same.symm (spellBytes_append_ne_close short.1)
  | (key, value) :: entries, [], more, others, short, _, same => by
    simp only [spellEntries, List.nil_append, List.append_assoc] at same
    exact absurd same (spellBytes_append_ne_close short.1)
  | (key, value) :: entries, (key', value') :: entries', more, others, shortOne, shortTwo, same => by
    simp only [spellEntries, List.append_assoc] at same
    obtain ⟨isKey, behindKey⟩ := @Token.lexeme_append_inj (.bytes key) (.bytes key') _ _ shortOne.1 shortTwo.1 same
    cases isKey
    obtain ⟨rfl, behindValue⟩ := spell_append_inj shortOne.2.1 shortTwo.2.1 behindKey
    obtain ⟨rfl, isRest⟩ := spellEntries_append_inj shortOne.2.2 shortTwo.2.2 behindValue
    exact ⟨rfl, isRest⟩
end

theorem spell_inj {one two : Value} (shortOne : one.Short) (shortTwo : two.Short) (same : one.spell = two.spell) :
    one = two := (spell_append_inj shortOne shortTwo (congrArg (· ++ []) same)).1

end Value

/-- Without a limit any two values are encoded, and whatever stands behind their encodings, the texts are the same
only if the values are and so is what stands behind them. In particular equal encodings are those of equal values. -/
theorem encode_append_inj {one two : Value} (shortOne : one.Short) (shortTwo : two.Short) :
    ∃ text other, encode (.value one) maxLength = .ok text ∧ encode (.value two) maxLength = .ok other ∧
      (∀ behind others, text ++ behind = other ++ others → one = two ∧ behind = others) ∧
      (text = other ↔ one = two) := by
  refine ⟨one.spell, two.spell, encode_value one, encode_value two, ?_, ?_⟩
  · intro behind others same
    exact Value.spell_append_inj shortOne shortTwo same
  · constructor
    · exact Value.spell_inj shortOne shortTwo
    · rintro rfl
      rfl

/-- A list that holds the byte of its own closing marker, and the empty list. -/
theorem closing_byte_told_apart : (Value.list [.bytes [101]]).Short ∧ (Value.list []).Short ∧
    ∃ text other, encode (.value (.list [.bytes [101]])) maxLength = .ok text ∧
      encode (.value (.list [])) maxLength = .ok other ∧ text ≠ other ∧
      ∀ behind others, text ++ behind ≠ other ++ others := by
  have shortOne : (Value.list [.bytes [101]]).Short := ⟨by simp [Value.Short], trivial⟩
  have shortTwo : (Value.list []).Short := trivial
  obtain ⟨text, other, encoded, encodedOther, inj, same⟩ := encode_append_inj shortOne shortTwo
  have apart : Value.list [.bytes [101]] ≠ .list [] := by decide
  exact ⟨shortOne, shortTwo, text, other, encoded, encodedOther, fun equal => apart (same.mp equal),
    fun behind others equal => apart (inj behind others equal).1⟩

end PeerSubstrate.Bencode
