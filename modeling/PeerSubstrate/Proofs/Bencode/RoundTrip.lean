import PeerSubstrate.Proofs.Bencode.Acceptance
import PeerSubstrate.Proofs.Bencode.Writing

/-!
# From a dictionary to its text and back

The encoding of a dictionary is read back as that dictionary, in front of any bytes, if it nests at
most `maxDepth` deep; otherwise the reader refuses it where the first container opens too deep.
-/

namespace PeerSubstrate.Bencode

namespace Value

/-- The entries of an ordered value stand where arranging would put them. -/
theorem arranged_of_ordered {value : Value} (ordered : value.Ordered) : value.arranged = value := by
  induction ordered with
  | int number => rfl
  | bytes content => rfl
  | list _ ih =>
    rw [arranged, arrangedItems_eq, List.map_congr_left ih, List.map_id']
  | @dict entries ascending _ ih =>
    have same : ∀ e ∈ entries, (e.1, e.2.arranged) = e := fun e member => congrArg (e.1, ·) (ih e member)
    rw [arranged, arrangedEntries_eq, List.map_congr_left same, List.map_id', Dictionary.mergeSort_eq_self ascending]

theorem distinct_of_ordered {value : Value} (ordered : value.Ordered) : value.Distinct := by
  induction ordered with
  | int number => trivial
  | bytes content => trivial
  | list _ ih => exact distinctItems_iff.mpr ih
  | dict ascending _ ih => exact ⟨Dictionary.ascending_nodup ascending, distinctEntries_iff.mpr ih⟩

end Value

/-- The text of an ordered dictionary is read back in front of any bytes, or refused where the first
container opens too deep. -/
theorem decodeStart_ordered {dict : Dict} (ordered : (Value.dict dict).Ordered) (short : (Value.dict dict).Short)
    (behind : Bytes) : decodeStart ((Value.dict dict).spell ++ behind) =
      Decoder.orTooDeep ((Value.dict dict).openings 0 0) (.ok (dict, (Value.dict dict).spell.length)) := by
  have arranged := Value.dict.inj (Value.arranged_of_ordered ordered)
  rw [decodeStart_spell short (Value.distinct_of_ordered ordered), arranged]

/-- Without a limit every dictionary can be encoded, and its encoding is read back whatever stands behind
it. Of a dictionary that nests too deep, the reader refuses the first container that opens inside of
`maxDepth` others. -/
theorem decodeStart_encoded {dict : Dict} (ordered : (Value.dict dict).Ordered) (short : (Value.dict dict).Short) :
    ∃ text, dict.encoded = .ok text ∧ ∀ behind,
      ((Value.dict dict).nesting ≤ maxDepth → decodeStart (text ++ behind) = .ok (dict, text.length)) ∧
      (maxDepth < (Value.dict dict).nesting → ∃ o ∈ (Value.dict dict).openings 0 0, o.level = maxDepth + 1 ∧
        (∀ o' ∈ (Value.dict dict).openings 0 0, o'.level = maxDepth + 1 → o.offset ≤ o'.offset) ∧
        (text[o.offset]? = some 100 ∨ text[o.offset]? = some 108) ∧
        decodeStart (text ++ behind) = .error ⟨o.offset, .tooDeep⟩) := by
  refine ⟨(Value.dict dict).spell, encode_value (.dict dict), fun behind => ?_⟩
  rw [decodeStart_ordered ordered short]
  refine ⟨fun shallow => orTooDeep_eq_ok_iff.mpr ⟨shallow, rfl⟩, fun deep => ?_⟩
  obtain ⟨o, first⟩ := Option.isSome_iff_exists.mp ((Value.firstTooDeep_isSome _).mpr deep)
  obtain ⟨member, level, earliest⟩ := Value.firstTooDeep_first first
  obtain ⟨byte, isByte, found⟩ := Value.opening_byte (.dict dict) [] o member
  specialize found []
  rw [List.nil_append, List.append_nil] at found
  refine ⟨o, member, level, earliest, ?_, ?_⟩
  · rcases isByte with rfl | rfl
    · exact .inl found
    · exact .inr found
  · unfold Value.firstTooDeep at first
    rw [Decoder.orTooDeep, first]

/-- The least integer under a key that is no text, with bytes behind the message. -/
theorem least_integer_read_back :
    (Value.dict [([255], .int Int64.minValue)]).Ordered ∧ (Value.dict [([255], .int Int64.minValue)]).Short ∧
      ∃ text, Dict.encoded [([255], .int Int64.minValue)] = .ok text ∧
        decodeStart (text ++ [100, 48]) = .ok ([([255], .int Int64.minValue)], text.length) := by
  have ordered : (Value.dict [([255], .int Int64.minValue)]).Ordered :=
    .dict (by decide) (List.forall_mem_singleton.mpr (.int _))
  have short : (Value.dict [([255], .int Int64.minValue)]).Short := ⟨by decide, trivial, trivial⟩
  obtain ⟨text, encoded, read⟩ := decodeStart_encoded ordered short
  exact ⟨ordered, short, text, encoded, (read [100, 48]).1 (by decide)⟩

end PeerSubstrate.Bencode
