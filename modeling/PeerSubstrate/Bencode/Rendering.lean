import PeerSubstrate.Text.Decimal
import PeerSubstrate.Text.Quoted
import PeerSubstrate.Bencode.Value

/-!
# Values in log lines

A value on one line of printable ASCII, whatever bytes it holds: byte strings that are printable stand
between quotes, all others as hexadecimal digits behind `0x`.
-/

namespace PeerSubstrate.Bencode

/-- A byte string in a log line. -/
def renderBytes (bytes : Bytes) : String :=
  if bytes.all Text.Quoted.isPrintable then "\"" ++ Text.Decimal.toText bytes ++ "\""
  else "0x" ++ Text.Hex.ofBytes bytes

namespace Value

mutual
def render : Value → String
  | .int number => Text.Decimal.signedText number
  | .bytes text => renderBytes text
  | .list items => "[" ++ renderItems items ++ "]"
  | .dict entries => "\x7b" ++ renderEntries entries ++ "\x7d"
def renderItems : List Value → String
  | [] => ""
  | [item] => item.render
  | item :: items => item.render ++ ", " ++ renderItems items
def renderEntries : List (Bytes × Value) → String
  | [] => ""
  | [(key, value)] => renderBytes key ++ ": " ++ value.render
  | (key, value) :: entries =>
    renderBytes key ++ ": " ++ value.render ++ ", " ++ renderEntries entries
end

end Value

end PeerSubstrate.Bencode
