import PeerSubstrate.Text.Decimal
import PeerSubstrate.Bencode.Value

/-!
# Writing messages

An `Encoder` holds what has been written and refuses to grow beyond its capacity. Everything is
written in a few kinds of primitive pieces, each of them whole or not at all: an integer, a byte
string, a span of bytes that is already encoded, and the single markers around a container. A
compound stops at the first piece that does not fit and leaves the pieces before it in place.

Dictionaries are written in ascending order of their keys, however their entries were given.
-/

namespace PeerSubstrate.Bencode

/-- The greatest length or capacity that can be asked for. -/
def maxLength : Nat := UInt64.size - 1

/-- Writing failed: the piece in hand would have ended at `required`, beyond `capacity`. -/
inductive EncodeError where
  | capacityExceeded (required capacity : Nat)
  deriving DecidableEq, Repr

def EncodeError.message : EncodeError → String
  | .capacityExceeded required capacity =>
    "Encoded message exceeds the " ++ Nat.repr capacity ++ " byte capacity, reached at least " ++
      Nat.repr required ++ " bytes"

/-- A buffer of bounded size. -/
structure Encoder where
  buffer : Array UInt8 := #[]
  capacity : Nat
  deriving DecidableEq

namespace Encoder

def written (e : Encoder) : Bytes := e.buffer.toList

def length (e : Encoder) : Nat := e.buffer.size

@[simp] theorem length_written (e : Encoder) : e.written.length = e.length := by
  simp [written, length]

/-- Adds bytes at the end, whatever the capacity. -/
def append (e : Encoder) (bytes : Bytes) : Encoder := { e with buffer := e.buffer ++ bytes }

@[simp] theorem written_append (e : Encoder) (bytes : Bytes) :
    (e.append bytes).written = e.written ++ bytes := by
  simp [append, written]

@[simp] theorem length_append (e : Encoder) (bytes : Bytes) :
    (e.append bytes).length = e.length + bytes.length := by
  rw [← length_written, written_append, List.length_append, length_written]

@[simp] theorem capacity_append (e : Encoder) (bytes : Bytes) :
    (e.append bytes).capacity = e.capacity := rfl

end Encoder

/-- Something to be written: whether it succeeded, and the buffer afterwards, also after a failure. -/
abbrev Write := Encoder → Except EncodeError Unit × Encoder

namespace Write

def nothing : Write := fun e => (.ok (), e)

/-- One piece after another, the second only if the first was written. -/
def andThen (first second : Write) : Write := fun e =>
  match first e with
  | (.ok (), e) => second e
  | (.error failure, e) => (.error failure, e)

/-- One piece after another up to the first that fails. -/
def all (writes : List Write) : Write := writes.foldr andThen nothing

/-- A primitive piece, written whole or not at all. -/
def piece (bytes : Bytes) : Write := fun e =>
  let required := min (e.length + bytes.length) maxLength
  if required > e.capacity then (.error (.capacityExceeded required e.capacity), e)
  else (.ok (), e.append bytes)

def int (number : Int64) : Write := piece (105 :: Text.Decimal.signed number ++ [101])

def bytes (text : Bytes) : Write := piece (Text.Decimal.digits text.length ++ 58 :: text)

def raw (encoded : Bytes) : Write := piece encoded

def list (items : List Write) : Write := (raw [108]).andThen ((all items).andThen (raw [101]))

/-- Keys and values in the order given, between `d` and `e`. -/
def entries (entries : List (Bytes × Write)) : Write :=
  (raw [100]).andThen
    ((all (entries.map fun entry => (bytes entry.1).andThen entry.2)).andThen (raw [101]))

/-- Keys and values in ascending order of the keys; entries with one key keep the order given. A map that has no
order of its own is given as its entries in whatever order it is gone through. -/
def dict (given : List (Bytes × Write)) : Write :=
  entries (given.mergeSort fun a b => a.1 ≤ b.1)

end Write

namespace Value

mutual
/-- Writes a value; its dictionaries are in key order already. -/
def write : Value → Write
  | .int number => .int number
  | .bytes text => .bytes text
  | .list items => .list (writeItems items)
  | .dict entries => .entries (writeEntries entries)
def writeItems : List Value → List Write
  | [] => []
  | item :: items => item.write :: writeItems items
def writeEntries : List (Bytes × Value) → List (Bytes × Write)
  | [] => []
  | (key, value) :: entries => (key, value.write) :: writeEntries entries
end

end Value

/-- What can be written where a value stands: numbers, byte strings, spans that are already encoded,
values, and lists and dictionaries of all of these. -/
inductive Encodable where
  | int (number : Int64)
  | bytes (text : Bytes)
  | raw (encoded : Bytes)
  | value (tree : Value)
  | list (items : List Encodable)
  | dict (entries : List (Bytes × Encodable))

namespace Encodable

mutual
/-- Writes an encodable thing. -/
def write : Encodable → Write
  | .int number => .int number
  | .bytes text => .bytes text
  | .raw encoded => .raw encoded
  | .value tree => tree.write
  | .list items => .list (writeItems items)
  | .dict entries => .dict (writeEntries entries)
def writeItems : List Encodable → List Write
  | [] => []
  | item :: items => item.write :: writeItems items
def writeEntries : List (Bytes × Encodable) → List (Bytes × Write)
  | [] => []
  | (key, item) :: entries => (key, item.write) :: writeEntries entries
end

def ofText (text : String) : Encodable := .bytes (Text.utf8 text)

/-- A map from texts that is kept in the order of its keys: the last entry with a key counts, and it is given to
`Write.dict` in that order. -/
def ofMap (entries : List (String × Encodable)) : Encodable :=
  .dict (Dictionary.ofEntries (entries.map fun entry => (Text.utf8 entry.1, entry.2)))

end Encodable

/-- Writes `source` into an empty buffer of `capacity` bytes. -/
def encode (source : Encodable) (capacity : Nat) : Except EncodeError Bytes :=
  match source.write { capacity } with
  | (.ok (), e) => .ok e.written
  | (.error failure, _) => .error failure

/-- Writes a dictionary without a limit. -/
def Dict.encoded (dict : Dict) : Except EncodeError Bytes := encode (.value (.dict dict)) maxLength

end PeerSubstrate.Bencode
