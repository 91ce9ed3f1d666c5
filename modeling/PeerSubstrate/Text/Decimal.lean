/-!
# Decimal digits

Numbers of the wire format are at most twenty digits long, which is what the largest 64-bit number
needs, so digits are produced into twenty places from the right.
-/

namespace PeerSubstrate.Text.Decimal

/-- The ASCII digit of a number below ten. -/
def digit (n : Nat) : UInt8 := UInt8.ofNat (48 + n)

def isDigit (byte : UInt8) : Bool := 48 ≤ byte && byte ≤ 57

def digitValue (byte : UInt8) : Nat := byte.toNat - 48

/-- The last `places` decimal digits of a number, without leading zeros. -/
def digitsWithin : Nat → Nat → List UInt8
  | 0, _ => []
  | places + 1, n => if n < 10 then [digit n] else digitsWithin places (n / 10) ++ [digit (n % 10)]

/-- The decimal digits of a number below 2^64. -/
def digits (n : Nat) : List UInt8 := digitsWithin 20 n

/-- The decimal digits of a signed 64-bit number, with a minus sign in front if it is negative. -/
def signed (n : Int64) : List UInt8 :=
  if n.toInt < 0 then 45 :: digits n.toInt.natAbs else digits n.toInt.natAbs

/-- ASCII bytes as text. -/
def toText (bytes : List UInt8) : String := String.ofList (bytes.map fun byte => Char.ofNat byte.toNat)

def signedText (n : Int64) : String := toText (signed n)

end PeerSubstrate.Text.Decimal
