import PeerSubstrate.Bencode.Rendering
import PeerSubstrate.Proofs.Bencode.Containers
import PeerSubstrate.Proofs.Text.Printable

/-!
# What log lines show

A value in a log line is printable ASCII and nothing else, whatever its keys and strings hold and however deep
it nests, so that no message forges a line of its own (`render_printable`). A byte string can be told from
its text: the quotes and the `0x` never begin the same text, and behind either the bytes can be read back
(`renderBytes_injective`).
-/

namespace PeerSubstrate.Bencode

open Text

private theorem printable_renderBytes (bytes : Bytes) : Printable (renderBytes bytes) := by
  rw [renderBytes]
  split
  next all =>
    have inside := Decimal.printable_toText (List.all_eq_true.mp all)
    have quote : Printable "\"" := by decide
    exact printable_append.mpr ⟨printable_append.mpr ⟨quote, inside⟩, quote⟩
  next => exact printable_append.mpr ⟨by decide, Hex.printable_ofBytes bytes⟩

/-- What stands between quotes does not begin like hexadecimal digits. -/
theorem quoted_ne_hex (text digits : String) : "\"" ++ text ++ "\"" ≠ "0x" ++ digits := by
  intro same
  have chars := congrArg String.toList same
  simp at chars

private theorem renderBytes_injective {one two : Bytes} (same : renderBytes one = renderBytes two) : one = two := by
  simp only [renderBytes] at same
  split at same <;> split at same
  next =>
    have chars := congrArg String.toList same
    simp only [String.toList_append, List.append_cancel_left_eq, List.append_cancel_right_eq] at chars
    exact Decimal.toText_injective (String.toList_inj.mp chars)
  next => exact absurd same (quoted_ne_hex _ _)
  next => exact absurd same.symm (quoted_ne_hex _ _)
  next =>
    have chars := congrArg String.toList same
    simp only [String.toList_append, List.append_cancel_left_eq] at chars
    exact Hex.ofBytes_injective (String.toList_inj.mp chars)

namespace Value

mutual
theorem printable_render : ∀ value : Value, Printable value.render
  | .int number => by
    rw [render]
    exact Decimal.printable_signedText number
  | .bytes text => by
    rw [render]
    exact printable_renderBytes text
  | .list items => by
    rw [render]
    simp only [printable_append, printable_renderItems items, and_true]
    decide
  | .dict entries => by
    rw [render]
    simp only [printable_append, printable_renderEntries entries, and_true]
    decide
theorem printable_renderItems : ∀ items : List Value, Printable (renderItems items)
  | [] => by decide
  | [item] => by
    rw [renderItems]
    exact printable_render item
  | item :: next :: items => by
    rw [renderItems]
    · simp only [printable_append, printable_render item, printable_renderItems (next :: items), and_true, true_and]
      decide
    · simp
theorem printable_renderEntries : ∀ entries : List (Bytes × Value), Printable (renderEntries entries)
  | [] => by decide
  | [(key, value)] => by
    rw [renderEntries]
    simp only [printable_append, printable_renderBytes key, printable_render value, and_true, true_and]
    decide
  | (key, value) :: next :: entries => by
    rw [renderEntries]
    · simp only [printable_append, printable_renderBytes key, printable_render value,
        printable_renderEntries (next :: entries), and_true, true_and]
      decide
    · simp
end

/-- A value in a log line is printable ASCII, byte for byte, and byte strings that look alike are equal. -/
theorem render_safe_for_logs :
    (∀ value : Value, ∀ byte ∈ utf8 value.render, 0x20 ≤ byte ∧ byte ≤ 0x7e) ∧
      ∀ one two : Bytes, (Value.bytes one).render = (Value.bytes two).render ↔ Value.bytes one = Value.bytes two := by
  refine ⟨fun value byte member => ?_, fun one two => ⟨fun same => ?_, congrArg render⟩⟩
  · simpa [Quoted.isPrintable] using printable_render value byte member
  · simp only [render] at same
    rw [renderBytes_injective same]

end Value

end PeerSubstrate.Bencode
