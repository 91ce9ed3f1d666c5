/-!
# Lower-case hexadecimal

Two digits a byte, the high half first.
-/

namespace PeerSubstrate.Text.Hex

/-- The hexadecimal digit of a number below sixteen. -/
def digit (n : Nat) : Char := if n < 10 then Char.ofNat (48 + n) else Char.ofNat (87 + n)

def byteDigits (byte : UInt8) : List Char := [digit (byte.toNat / 16), digit (byte.toNat % 16)]

def digits (bytes : List UInt8) : List Char := bytes.flatMap byteDigits

/-- A byte string as hexadecimal text. -/
def ofBytes (bytes : List UInt8) : String := String.ofList (digits bytes)

end PeerSubstrate.Text.Hex
