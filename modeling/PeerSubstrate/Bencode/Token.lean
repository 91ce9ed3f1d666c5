import PeerSubstrate.Bencode.DecodeError

/-!
# Tokens

The lexical level of the wire format: markers that open and close containers, integers and byte
strings. A `Tokenizer` goes through its input once, counts the containers that are open, and has
nothing more to say once the first value is complete; what comes after that value is never looked at.

A failed call leaves the reader where it found the fault, which is inside the token.
-/

namespace PeerSubstrate.Bencode

inductive Token where
  | dictStart
  | listStart
  | close
  | int (number : Int64)
  | bytes (text : Bytes)
  deriving DecidableEq

/-- The part of the input that is still unread, and its offset. -/
structure Cursor where
  rest : Bytes
  position : Nat
  deriving DecidableEq

namespace Cursor

/-- The result of reading something, and the cursor afterwards, also after a failure. -/
abbrev Reading (α : Type) := Except DecodeError α × Cursor

/-- The digits up to `stop` as a number at or below zero, `none` if there are none. Reading counts
downwards because the range of a signed number reaches one further below zero than above it.
`start` is where the number began; `first` is the first digit, once it has been read. -/
def digits (stop : UInt8) (start : Nat) : Option UInt8 → Int → Bytes → Nat → Reading (Option Int)
  | _, _, [], position => (.error ⟨position, .unexpectedEnd⟩, ⟨[], position⟩)
  | first, total, byte :: rest, position =>
    let here : Cursor := ⟨byte :: rest, position⟩
    if byte = stop then (.ok (first.map fun _ => total), here)
    else if !Text.Decimal.isDigit byte then (.error ⟨position, .unexpectedByte byte⟩, here)
    else if first = some 48 then (.error ⟨start, .leadingZero⟩, here)
    else
      let next := total * 10 - Text.Decimal.digitValue byte
      if next < Int64.minValue.toInt then (.error ⟨start, .integerOverflow⟩, here)
      else digits stop start (first.or (some byte)) next rest (position + 1)

/-- The number that `digits` read, with its sign: `total` is not above zero, and its negation may
fall out of range. -/
def withSign (negative : Bool) (start : Nat) (total : Int) : Except DecodeError Int64 :=
  if negative then
    if total = 0 then .error ⟨start, .negativeZero⟩ else .ok (Int64.ofInt total)
  else if -total > Int64.maxValue.toInt then .error ⟨start, .integerOverflow⟩
  else .ok (Int64.ofInt (-total))

/-- A number after its sign, up to and including `stop`. -/
def unsignedNumber (stop : UInt8) (negative : Bool) (start : Nat) (c : Cursor) : Reading Int64 :=
  match digits stop start none 0 c.rest c.position with
  | (.error e, c) => (.error e, c)
  | (.ok none, c) => (.error ⟨start, .emptyNumber⟩, c)
  | (.ok (some total), c) => (withSign negative start total, ⟨c.rest.drop 1, c.position + 1⟩)

/-- A decimal number up to and including `stop`, with a sign only if `signed`. -/
def number (stop : UInt8) (signed : Bool) (c : Cursor) : Reading Int64 :=
  if signed then
    match c.rest with
    | [] => (.error ⟨c.position, .unexpectedEnd⟩, c)
    | byte :: rest =>
      if byte = 45 then unsignedNumber stop true c.position ⟨rest, c.position + 1⟩
      else unsignedNumber stop false c.position c
  else unsignedNumber stop false c.position c

def byteString (c : Cursor) : Reading Bytes :=
  match number 58 false c with
  | (.error e, after) => (.error e, after)
  | (.ok declared, after) =>
    let length := declared.toInt.toNat
    if length > after.rest.length then
      (.error ⟨c.position, .lengthOverrun length after.rest.length⟩, after)
    else (.ok (after.rest.take length), ⟨after.rest.drop length, after.position + length⟩)

end Cursor

/-- A reader of tokens: where it is, how many containers are open, and whether the first value is
complete. -/
structure Tokenizer where
  rest : Bytes
  position : Nat := 0
  depth : Nat := 0
  finished : Bool := false
  deriving DecidableEq

namespace Tokenizer

def ofInput (input : Bytes) : Tokenizer := { rest := input }

def cursor (t : Tokenizer) : Cursor := ⟨t.rest, t.position⟩

def moveTo (t : Tokenizer) (c : Cursor) : Tokenizer := { t with rest := c.rest, position := c.position }

/-- A token was read up to `c` and leaves `depth` containers open; without any, the value is
complete. -/
def accepted (token : Token) (c : Cursor) (depth : Nat) :
    Except DecodeError (Option Token) × Tokenizer :=
  (.ok (some token), { rest := c.rest, position := c.position, depth, finished := depth == 0 })

/-- The next token, or `none` after the first value. -/
def next (t : Tokenizer) : Except DecodeError (Option Token) × Tokenizer :=
  if t.finished then (.ok none, t)
  else match t.rest with
  | [] => (.error ⟨t.position, .unexpectedEnd⟩, t)
  | byte :: rest =>
    let behind : Cursor := ⟨rest, t.position + 1⟩
    if byte = 100 then accepted .dictStart behind (t.depth + 1)
    else if byte = 108 then accepted .listStart behind (t.depth + 1)
    else if byte = 101 then
      if t.depth = 0 then (.error ⟨t.position, .unexpectedByte byte⟩, t)
      else accepted .close behind (t.depth - 1)
    else if byte = 105 then
      match behind.number 101 true with
      | (.ok number, c) => accepted (.int number) c t.depth
      | (.error e, c) => (.error e, t.moveTo c)
    else if Text.Decimal.isDigit byte then
      match t.cursor.byteString with
      | (.ok text, c) => accepted (.bytes text) c t.depth
      | (.error e, c) => (.error e, t.moveTo c)
    else (.error ⟨t.position, .unexpectedByte byte⟩, t)

/-- The next token as an item of a sequence, which ends with the first error. -/
def nextItem (t : Tokenizer) : Option (Except DecodeError Token) × Tokenizer :=
  match t.next with
  | (.ok none, after) => (none, after)
  | (.ok (some token), after) => (some (.ok token), after)
  | (.error e, after) => (some (.error e), { after with finished := true })

end Tokenizer

end PeerSubstrate.Bencode
