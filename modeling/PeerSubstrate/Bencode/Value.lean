import PeerSubstrate.Bencode.Dictionary
import PeerSubstrate.Text.Utf8

/-!
# Values

What a bencoded message holds: integers of 64 bits, byte strings, lists and dictionaries. Values
whose dictionaries all have strictly ascending keys are `Ordered`; reading yields only those, and on
them equality is equality of meaning.
-/

namespace PeerSubstrate.Bencode

/-- A tree of integers, byte strings, lists and dictionaries. -/
inductive Value where
  | int (number : Int64)
  | bytes (text : Bytes)
  | list (items : List Value)
  | dict (entries : List (Bytes × Value))
  deriving Inhabited

abbrev Dict := Dictionary Value

namespace Value

mutual
def decideEq : (a b : Value) → Decidable (a = b)
  | .int a, .int b => decidable_of_iff (a = b) (by simp)
  | .bytes a, .bytes b => decidable_of_iff (a = b) (by simp)
  | .list a, .list b => have := decideEqItems a b; decidable_of_iff (a = b) (by simp)
  | .dict a, .dict b => have := decideEqEntries a b; decidable_of_iff (a = b) (by simp)
  | .int _, .bytes _ | .int _, .list _ | .int _, .dict _
  | .bytes _, .int _ | .bytes _, .list _ | .bytes _, .dict _
  | .list _, .int _ | .list _, .bytes _ | .list _, .dict _
  | .dict _, .int _ | .dict _, .bytes _ | .dict _, .list _ => .isFalse (by simp)
def decideEqItems : (a b : List Value) → Decidable (a = b)
  | [], [] => .isTrue rfl
  | a :: as, b :: bs =>
    have := decideEq a b
    have := decideEqItems as bs
    decidable_of_iff (a = b ∧ as = bs) (by simp)
  | [], _ :: _ | _ :: _, [] => .isFalse (by simp)
def decideEqEntries : (a b : List (Bytes × Value)) → Decidable (a = b)
  | [], [] => .isTrue rfl
  | (k, a) :: as, (l, b) :: bs =>
    have := decideEq a b
    have := decideEqEntries as bs
    decidable_of_iff ((k = l ∧ a = b) ∧ as = bs) (by simp)
  | [], _ :: _ | _ :: _, [] => .isFalse (by simp)
end

instance : DecidableEq Value := decideEq

/-- Every dictionary in the value, at any depth, has strictly ascending keys. -/
inductive Ordered : Value → Prop
  | int (number : Int64) : Ordered (.int number)
  | bytes (text : Bytes) : Ordered (.bytes text)
  | list {items : List Value} : (∀ item ∈ items, Ordered item) → Ordered (.list items)
  | dict {entries : List (Bytes × Value)} :
      Dictionary.Ascending entries → (∀ entry ∈ entries, Ordered entry.2) → Ordered (.dict entries)

/-- The dictionary that collects `entries`, the last of each key. -/
def ofEntries (entries : List (Bytes × Value)) : Value := .dict (Dictionary.ofEntries entries)

def ofText (text : String) : Value := .bytes (Text.utf8 text)

def asDict? : Value → Option Dict
  | .dict entries => some entries
  | _ => none

def asList? : Value → Option (List Value)
  | .list items => some items
  | _ => none

def asBytes? : Value → Option Bytes
  | .bytes text => some text
  | _ => none

/-- The text, if the value is a byte string that is valid UTF-8. -/
def asText? (value : Value) : Option String :=
  value.asBytes?.bind fun bytes => String.fromUTF8? ⟨bytes.toArray⟩

def asInt? : Value → Option Int64
  | .int number => some number
  | _ => none

/-- The value under `key`, if this is a dictionary that has one. -/
def get? (key : Bytes) (value : Value) : Option Value := value.asDict?.bind (Dictionary.find? key)

/-- What is reached by following each key of a path in turn, step by step; a missing key leads
nowhere, and so do all keys after it. -/
def along : Option Value → List Bytes → List (Option Value)
  | _, [] => []
  | at?, key :: path => let next := at?.bind (get? key); next :: along next path

end Value

end PeerSubstrate.Bencode
