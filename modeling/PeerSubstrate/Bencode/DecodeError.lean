import PeerSubstrate.Text.Decimal
import PeerSubstrate.Text.Quoted
import PeerSubstrate.Bencode.Value

/-!
# Malformed input

What can be wrong with a message, and where. The offset is that of the byte at which the input stops
being the beginning of a well-formed message.
-/

namespace PeerSubstrate.Bencode

/-- Containers may nest this deep, the root included. -/
def maxDepth : Nat := 256

/-- What is wrong with the input. A number is `emptyNumber` without digits, `leadingZero` if the first of
several digits is a zero, `negativeZero` if it is a zero with a minus sign, and `integerOverflow` outside of the
signed 64-bit range. A byte string of `lengthOverrun` claims to be longer than what is left, a dictionary of
`missingValue` ends after a key, and a container that is `tooDeep` opens inside of the most that may be open. -/
inductive DecodeError.Kind where
  | unexpectedEnd
  | unexpectedByte (byte : UInt8)
  | notADictionary
  | leadingZero
  | negativeZero
  | emptyNumber
  | integerOverflow
  | lengthOverrun (declared remaining : Nat)
  | duplicateKey (key : Bytes)
  | nonStringKey
  | missingValue
  | tooDeep
  deriving DecidableEq, Repr

/-- Why a message was refused, and the offset of the byte that decided it. -/
structure DecodeError where
  offset : Nat
  kind : DecodeError.Kind
  deriving DecidableEq, Repr

namespace DecodeError

def Kind.message : Kind → String
  | .unexpectedEnd => "unexpected end of input"
  | .unexpectedByte byte => "unexpected byte 0x" ++ Text.Hex.ofBytes [byte]
  | .notADictionary => "root value is not a dictionary"
  | .leadingZero => "number has a leading zero"
  | .negativeZero => "negative zero"
  | .emptyNumber => "number has no digits"
  | .integerOverflow => "integer does not fit in 64 bits"
  | .lengthOverrun declared remaining =>
    "string length " ++ Nat.repr declared ++ " exceeds the " ++ Nat.repr remaining ++ " remaining bytes"
  | .duplicateKey key => "duplicate dictionary key " ++ Text.Quoted.ofBytes key
  | .nonStringKey => "dictionary key is not a byte string"
  | .missingValue => "dictionary key has no value"
  | .tooDeep => "nesting deeper than " ++ Nat.repr maxDepth

/-- The place and the reason in words. -/
def message (error : DecodeError) : String :=
  "Invalid bencode at byte " ++ Nat.repr error.offset ++ ": " ++ error.kind.message

end DecodeError

end PeerSubstrate.Bencode
