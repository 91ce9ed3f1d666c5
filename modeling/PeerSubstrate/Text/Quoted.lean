import PeerSubstrate.Text.Hex

/-!
# Quoted byte strings

A byte string between `b"` and `"`: printable ASCII stands for itself, and every other byte, the
quote and the backslash are escaped, so that the text never holds anything but printable ASCII.
-/

namespace PeerSubstrate.Text.Quoted

/-- A printable ASCII byte, the blank included. -/
def isPrintable (byte : UInt8) : Bool := 0x20 ≤ byte && byte ≤ 0x7e

/-- One byte as it stands between the quotes. -/
def escape (byte : UInt8) : List Char :=
  if byte = 10 then ['\\', 'n']
  else if byte = 13 then ['\\', 'r']
  else if byte = 9 then ['\\', 't']
  else if byte = 0 then ['\\', '0']
  else if byte = 92 then ['\\', '\\']
  else if byte = 34 then ['\\', '"']
  else if isPrintable byte then [Char.ofNat byte.toNat]
  else '\\' :: 'x' :: Hex.byteDigits byte

/-- A byte string between quotes. -/
def ofBytes (bytes : List UInt8) : String :=
  String.ofList (['b', '"'] ++ bytes.flatMap escape ++ ['"'])

end PeerSubstrate.Text.Quoted
