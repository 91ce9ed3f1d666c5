import PeerSubstrate.Bencode.DecodeError
import PeerSubstrate.Proofs.Text.Numeral

/-!
# The grammar of messages

What a text must look like to be a value (`Spells`), said by rules of derivation and without the
reader or the writer. The value that a text spells keeps the entries of its dictionaries in the order
in which they stand there; `arranged` is the value meant by it. `spell` writes the text of a value,
and is the only text that spells it (`spells_iff`).
-/

namespace PeerSubstrate.Bencode
open PeerSubstrate.Text.Decimal (Numeral digits signed numeral_iff_digits digits_numeral)

/-- `text` is the literal of a signed number: its numeral, behind a minus sign if the number is below
zero. A zero has no minus sign. -/
inductive Integer : Bytes → Int64 → Prop
  | unsigned {text : Bytes} {n : Nat} {number : Int64} :
      Numeral text n → number.toInt = n → Integer text number
  | negative {text : Bytes} {n : Nat} {number : Int64} :
      Numeral text n → 0 < n → number.toInt = -n → Integer (45 :: text) number

/-- `text` is the byte string `content` behind its length and a colon. -/
inductive ByteString : Bytes → Bytes → Prop
  | mk {length content : Bytes} : Numeral length content.length → ByteString (length ++ 58 :: content) content

mutual
/-- `text` is derivable as the value `tree`, entries in the order of the text. -/
inductive Spells : Bytes → Value → Prop
  | int {text : Bytes} {number : Int64} : Integer text number → Spells (105 :: (text ++ [101])) (.int number)
  | bytes {text content : Bytes} : ByteString text content → Spells text (.bytes content)
  | list {text : Bytes} {items : List Value} : SpellsItems text items → Spells (108 :: (text ++ [101])) (.list items)
  | dict {text : Bytes} {entries : List (Bytes × Value)} : SpellsEntries text entries →
      (entries.map Prod.fst).Nodup → Spells (100 :: (text ++ [101])) (.dict entries)
/-- `text` is one value after another. -/
inductive SpellsItems : Bytes → List Value → Prop
  | nil : SpellsItems [] []
  | cons {text more : Bytes} {item : Value} {items : List Value} :
      Spells text item → SpellsItems more items → SpellsItems (text ++ more) (item :: items)
/-- `text` is one key with its value after another. -/
inductive SpellsEntries : Bytes → List (Bytes × Value) → Prop
  | nil : SpellsEntries [] []
  | cons {name text more key : Bytes} {value : Value} {entries : List (Bytes × Value)} :
      ByteString name key → Spells text value → SpellsEntries more entries →
      SpellsEntries (name ++ (text ++ more)) ((key, value) :: entries)
end

namespace Value

mutual
/-- How deep containers nest in a value, itself included. -/
def nesting : Value → Nat
  | .int _ | .bytes _ => 0
  | .list items => nestingItems items + 1
  | .dict entries => nestingEntries entries + 1
/-- The most that any of the items nests. -/
def nestingItems : List Value → Nat
  | [] => 0
  | item :: items => max item.nesting (nestingItems items)
/-- The most that the value of any entry nests. -/
def nestingEntries : List (Bytes × Value) → Nat
  | [] => 0
  | (_, value) :: entries => max value.nesting (nestingEntries entries)
end

mutual
/-- The value with the entries of every dictionary in ascending order of their keys. -/
def arranged : Value → Value
  | .int number => .int number
  | .bytes text => .bytes text
  | .list items => .list (arrangedItems items)
  | .dict entries => .dict ((arrangedEntries entries).mergeSort fun a b => a.1 ≤ b.1)
/-- The items, each of them arranged. -/
def arrangedItems : List Value → List Value
  | [] => []
  | item :: items => item.arranged :: arrangedItems items
/-- The entries in the order given, the value of each of them arranged. -/
def arrangedEntries : List (Bytes × Value) → List (Bytes × Value)
  | [] => []
  | (key, value) :: entries => (key, value.arranged) :: arrangedEntries entries
end

mutual
/-- No dictionary in the value has a key twice. -/
def Distinct : Value → Prop
  | .int _ | .bytes _ => True
  | .list items => DistinctItems items
  | .dict entries => (entries.map Prod.fst).Nodup ∧ DistinctEntries entries
/-- Every item is `Distinct`. -/
def DistinctItems : List Value → Prop
  | [] => True
  | item :: items => item.Distinct ∧ DistinctItems items
/-- The value of every entry is `Distinct`. -/
def DistinctEntries : List (Bytes × Value) → Prop
  | [] => True
  | (_, value) :: entries => value.Distinct ∧ DistinctEntries entries
end

mutual
/-- Every byte string and every key in the value is shorter than 2^63. -/
def Short : Value → Prop
  | .int _ => True
  | .bytes text => text.length < 2 ^ 63
  | .list items => ShortItems items
  | .dict entries => ShortEntries entries
/-- Every item is `Short`. -/
def ShortItems : List Value → Prop
  | [] => True
  | item :: items => item.Short ∧ ShortItems items
/-- Every key is shorter than 2^63, and its value is `Short`. -/
def ShortEntries : List (Bytes × Value) → Prop
  | [] => True
  | (key, value) :: entries => key.length < 2 ^ 63 ∧ value.Short ∧ ShortEntries entries
end

end Value

/-- `text` is a message, and `dict` is what it means. -/
def Message (text : Bytes) (dict : Dict) : Prop :=
  ∃ entries, Spells text (.dict entries) ∧ (Value.dict entries).nesting ≤ maxDepth ∧
    (Value.dict entries).arranged = .dict dict

/-- A byte string as it stands in a text. -/
def spellBytes (content : Bytes) : Bytes := digits content.length ++ 58 :: content

namespace Value

mutual
/-- A value as it stands in a text, entries in the order given. -/
def spell : Value → Bytes
  | .int number => 105 :: (signed number ++ [101])
  | .bytes content => spellBytes content
  | .list items => 108 :: (spellItems items ++ [101])
  | .dict entries => 100 :: (spellEntries entries ++ [101])
/-- Items one after another. -/
def spellItems : List Value → Bytes
  | [] => []
  | item :: items => item.spell ++ spellItems items
/-- Entries one after another. -/
def spellEntries : List (Bytes × Value) → Bytes
  | [] => []
  | (key, value) :: entries => spellBytes key ++ (value.spell ++ spellEntries entries)
end

theorem spellItems_eq (items : List Value) : spellItems items = items.flatMap spell := by
  induction items with
  | nil => rfl
  | cons item items ih => rw [spellItems, ih, List.flatMap_cons]

theorem spellEntries_eq (entries : List (Bytes × Value)) :
    spellEntries entries = entries.flatMap fun e => spellBytes e.1 ++ e.2.spell := by
  induction entries with
  | nil => rfl
  | cons entry entries ih => rw [spellEntries, ih, List.flatMap_cons, List.append_assoc]

theorem arrangedItems_eq (items : List Value) : arrangedItems items = items.map arranged := by
  induction items with
  | nil => rfl
  | cons item items ih => rw [arrangedItems, ih, List.map_cons]

theorem arrangedEntries_eq (entries : List (Bytes × Value)) :
    arrangedEntries entries = entries.map fun e => (e.1, e.2.arranged) := by
  induction entries with
  | nil => rfl
  | cons entry entries ih => rw [arrangedEntries, ih, List.map_cons]

theorem distinctItems_iff {items : List Value} : DistinctItems items ↔ ∀ item ∈ items, item.Distinct := by
  induction items with
  | nil => simp [DistinctItems]
  | cons item items ih => rw [DistinctItems, ih, List.forall_mem_cons]

theorem distinctEntries_iff {entries : List (Bytes × Value)} :
    DistinctEntries entries ↔ ∀ e ∈ entries, e.2.Distinct := by
  induction entries with
  | nil => simp [DistinctEntries]
  | cons entry entries ih => rw [DistinctEntries, ih, List.forall_mem_cons]

theorem shortItems_iff {items : List Value} : ShortItems items ↔ ∀ item ∈ items, item.Short := by
  induction items with
  | nil => simp [ShortItems]
  | cons item items ih => rw [ShortItems, ih, List.forall_mem_cons]

theorem shortEntries_iff {entries : List (Bytes × Value)} :
    ShortEntries entries ↔ ∀ e ∈ entries, e.1.length < 2 ^ 63 ∧ e.2.Short := by
  induction entries with
  | nil => simp [ShortEntries]
  | cons entry entries ih => rw [ShortEntries, ih, List.forall_mem_cons, and_assoc]

theorem keys_arrangedEntries (entries : List (Bytes × Value)) :
    (arrangedEntries entries).map Prod.fst = entries.map Prod.fst := by
  rw [arrangedEntries_eq, List.map_map]
  rfl

end Value

theorem byteString_iff_spellBytes {text content : Bytes} (short : content.length < 2 ^ 63) :
    ByteString text content ↔ text = spellBytes content := by
  constructor
  · rintro ⟨numeral⟩
    rw [spellBytes, (numeral_iff_digits (by omega)).mp numeral]
  · rintro rfl
    exact .mk (digits_numeral (by omega))

theorem integer_iff_signed {text : Bytes} {number : Int64} : Integer text number ↔ text = signed number := by
  have low := number.le_toInt
  have high := number.toInt_lt
  constructor
  · rintro (@⟨_, n, _, numeral, same⟩ | @⟨digits, n, _, numeral, positive, same⟩)
    · rw [(numeral_iff_digits (by omega)).mp numeral, signed, if_neg (by omega), same, Int.natAbs_natCast]
    · rw [(numeral_iff_digits (by omega)).mp numeral, signed, if_pos (by omega), same, Int.natAbs_neg,
        Int.natAbs_natCast]
  · rintro rfl
    rw [signed]
    split
    · next negative => exact .negative (digits_numeral (by omega)) (by omega) (by omega)
    · next positive => exact .unsigned (digits_numeral (by omega)) (by omega)

mutual
/-- What a text below 2^63 bytes spells holds only byte strings below that length. -/
theorem short_of_spells : ∀ {tree : Value} {text : Bytes}, Spells text tree → text.length < 2 ^ 63 → tree.Short
  | .int _, _, _, _ => trivial
  | .bytes content, _, .bytes (.mk _), small => by
    simp only [List.length_append, List.length_cons] at small
    simp only [Value.Short]
    omega
  | .list _, _, .list items, small =>
    shortItems_of_spells items (by simp only [List.length_cons, List.length_append] at small; omega)
  | .dict _, _, .dict entries _, small =>
    shortEntries_of_spells entries (by simp only [List.length_cons, List.length_append] at small; omega)
theorem shortItems_of_spells : ∀ {items : List Value} {text : Bytes}, SpellsItems text items →
    text.length < 2 ^ 63 → Value.ShortItems items
  | [], _, _, _ => trivial
  | _ :: _, _, .cons first others, small => by
    rw [List.length_append] at small
    exact ⟨short_of_spells first (by omega), shortItems_of_spells others (by omega)⟩
theorem shortEntries_of_spells : ∀ {entries : List (Bytes × Value)} {text : Bytes}, SpellsEntries text entries →
    text.length < 2 ^ 63 → Value.ShortEntries entries
  | [], _, _, _ => trivial
  | (key, _) :: _, _, .cons (.mk _) first others, small => by
    simp only [List.length_append, List.length_cons] at small
    exact ⟨by omega, short_of_spells first (by omega), shortEntries_of_spells others (by omega)⟩
end

mutual
/-- One text spells a value, and it is the one that `spell` writes. -/
theorem spells_iff : ∀ {tree : Value} {text : Bytes}, tree.Short →
    (Spells text tree ↔ text = tree.spell ∧ tree.Distinct)
  | .int number, text, _ => by
    simp only [Value.spell, Value.Distinct, and_true]
    constructor
    · intro derived
      cases derived with
      | int literal => rw [integer_iff_signed.mp literal]
    · rintro rfl
      exact .int (integer_iff_signed.mpr rfl)
  | .bytes content, text, short => by
    simp only [Value.spell, Value.Distinct, and_true]
    rw [← byteString_iff_spellBytes short]
    exact ⟨fun | .bytes string => string, .bytes⟩
  | .list items, text, short => by
    have inside := @spellsItems_iff items
    simp only [Value.spell, Value.Distinct]
    constructor
    · intro derived
      cases derived with
      | list spelled =>
        obtain ⟨rfl, distinct⟩ := (inside short).mp spelled
        exact ⟨rfl, distinct⟩
    · rintro ⟨rfl, distinct⟩
      exact .list ((inside short).mpr ⟨rfl, distinct⟩)
  | .dict entries, text, short => by
    have inside := @spellsEntries_iff entries
    simp only [Value.spell, Value.Distinct]
    constructor
    · intro derived
      cases derived with
      | dict spelled keys =>
        obtain ⟨rfl, distinct⟩ := (inside short).mp spelled
        exact ⟨rfl, keys, distinct⟩
    · rintro ⟨rfl, keys, distinct⟩
      exact .dict ((inside short).mpr ⟨rfl, distinct⟩) keys
theorem spellsItems_iff : ∀ {items : List Value} {text : Bytes}, Value.ShortItems items →
    (SpellsItems text items ↔ text = Value.spellItems items ∧ Value.DistinctItems items)
  | [], text, _ => by
    simp only [Value.spellItems, Value.DistinctItems, and_true]
    exact ⟨fun | .nil => rfl, fun h => h ▸ .nil⟩
  | item :: items, text, short => by
    have first := @spells_iff item
    have others := @spellsItems_iff items
    simp only [Value.spellItems, Value.DistinctItems]
    constructor
    · intro derived
      cases derived with
      | cons one more =>
        obtain ⟨rfl, distinct⟩ := (first short.1).mp one
        obtain ⟨rfl, distinctMore⟩ := (others short.2).mp more
        exact ⟨rfl, distinct, distinctMore⟩
    · rintro ⟨rfl, distinct, distinctMore⟩
      exact .cons ((first short.1).mpr ⟨rfl, distinct⟩) ((others short.2).mpr ⟨rfl, distinctMore⟩)
theorem spellsEntries_iff : ∀ {entries : List (Bytes × Value)} {text : Bytes}, Value.ShortEntries entries →
    (SpellsEntries text entries ↔ text = Value.spellEntries entries ∧ Value.DistinctEntries entries)
  | [], text, _ => by
    simp only [Value.spellEntries, Value.DistinctEntries, and_true]
    exact ⟨fun | .nil => rfl, fun h => h ▸ .nil⟩
  | (key, value) :: entries, text, short => by
    have first := @spells_iff value
    have others := @spellsEntries_iff entries
    simp only [Value.spellEntries, Value.DistinctEntries]
    constructor
    · intro derived
      cases derived with
      | cons name one more =>
        rw [(byteString_iff_spellBytes short.1).mp name]
        obtain ⟨rfl, distinct⟩ := (first short.2.1).mp one
        obtain ⟨rfl, distinctMore⟩ := (others short.2.2).mp more
        exact ⟨rfl, distinct, distinctMore⟩
    · rintro ⟨rfl, distinct, distinctMore⟩
      exact .cons ((byteString_iff_spellBytes short.1).mpr rfl) ((first short.2.1).mpr ⟨rfl, distinct⟩)
        ((others short.2.2).mpr ⟨rfl, distinctMore⟩)
end

end PeerSubstrate.Bencode
