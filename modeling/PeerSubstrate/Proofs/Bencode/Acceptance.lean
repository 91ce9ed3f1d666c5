import PeerSubstrate.Proofs.Bencode.Decoding

/-!
# What the reader accepts

Along every run of the reader, what was read so far is the text of the containers on its stack
(`Reading.step`); so what it reads in full is the text of a dictionary, and what it accepts is exactly
what the grammar derives within the permitted depth (`decodeStart_iff_message`).
-/

namespace PeerSubstrate.Bencode
namespace Decoder

/-- The text of a container as far as it has been read, and the frame that holds what it says. -/
inductive Filled : Bytes → Frame → Prop
  | list {items : List Value} : Value.DistinctItems items → Value.ShortItems items →
      Filled (108 :: Value.spellItems items) (.list (Value.arrangedItems items).reverse)
  | dict {entries : List (Bytes × Value)} : Value.Distinct (.dict entries) → Value.ShortEntries entries →
      Filled (100 :: Value.spellEntries entries) (.dict (Dictionary.ofEntries (Value.arrangedEntries entries)) none)
  | key {entries : List (Bytes × Value)} {key : Bytes} : Value.Distinct (.dict entries) → Value.ShortEntries entries →
      key ∉ entries.map Prod.fst → key.length < 2 ^ 63 →
      Filled (100 :: (Value.spellEntries entries ++ spellBytes key))
        (.dict (Dictionary.ofEntries (Value.arrangedEntries entries)) (some key))

/-- The text of the containers of a stack as far as they have been read. -/
inductive Opened : Bytes → List Frame → Prop
  | nil : Opened [] []
  | cons {before text : Bytes} {frame : Frame} {outer : List Frame} : Opened before outer →
      awaitingKey outer = false → Filled text frame → Opened (before ++ text) (frame :: outer)

/-- Where the reader stands in its input once it has read `read`. -/
structure Reading (input read : Bytes) (d : Decoder) : Prop where
  input_eq : input = read ++ d.tokens.rest
  opened : Opened read d.stack
  position : d.tokens.position = read.length
  depth : d.tokens.depth = d.stack.length

/-- What taking a token in leads to, once `read` has been read and `tokens` are left, `depth` containers deep. -/
def Arrived (read : Bytes) (tokens : Tokenizer) (depth : Nat) : Except DecodeError Progress → Prop
  | .error _ => True
  | .ok (.more d) => d.tokens = tokens ∧ d.stack.length = depth ∧ Opened read d.stack
  | .ok (.complete _ stop) => stop = tokens.position ∧ ∃ entries, read = (Value.dict entries).spell ∧
      (Value.dict entries).Distinct ∧ (Value.dict entries).Short

private theorem distinct_concat {entries : List (Bytes × Value)} {key : Bytes} {value : Value}
    (distinct : Value.Distinct (.dict entries)) (new : key ∉ entries.map Prod.fst) (inside : value.Distinct) :
    Value.Distinct (.dict (entries ++ [(key, value)])) := by
  rw [Value.Distinct, Value.distinctEntries_iff] at distinct ⊢
  refine ⟨?_, ?_⟩
  · rw [List.map_append, List.map_singleton, List.nodup_append]
    refine ⟨distinct.1, by simp, ?_⟩
    rintro other member _ last rfl
    rw [List.mem_singleton.mp last] at member
    exact new member
  · intro entry member
    rcases List.mem_append.mp member with earlier | last
    · exact distinct.2 entry earlier
    · rw [List.mem_singleton.mp last]
      exact inside

private theorem place_arrived {value : Value} (distinct : value.Distinct) (short : value.Short) {read : Bytes}
    {stack : List Frame} (opened : Opened read stack) (ready : awaitingKey stack = false) (tokens : Tokenizer) :
    Arrived (read ++ value.spell) tokens stack.length (place value.arranged tokens stack) := by
  cases opened with
  | nil =>
    cases value with
    | dict entries => exact ⟨rfl, entries, rfl, distinct, short⟩
    | _ => trivial
  | @cons before text frame outer opened outside filled =>
    rw [List.append_assoc]
    cases filled with
    | @list items distinctItems shortItems =>
      refine ⟨rfl, rfl, .cons opened outside ?_⟩
      have grown : Value.arranged value :: (Value.arrangedItems items).reverse =
          (Value.arrangedItems (items ++ [value])).reverse := by
        simp [Value.arrangedItems_eq]
      rw [grown, List.cons_append, show Value.spellItems items ++ value.spell = Value.spellItems (items ++ [value]) by
        simp [Value.spellItems_eq]]
      rw [Value.distinctItems_iff] at distinctItems
      rw [Value.shortItems_iff] at shortItems
      refine .list (Value.distinctItems_iff.mpr ?_) (Value.shortItems_iff.mpr ?_)
      · simpa [or_imp, forall_and] using ⟨distinctItems, distinct⟩
      · simpa [or_imp, forall_and] using ⟨shortItems, short⟩
    | dict => simp [awaitingKey] at ready
    | @key entries key distinctEntries shortEntries new shortKey =>
      refine ⟨rfl, rfl, .cons opened outside ?_⟩
      have grown : Dictionary.insert key value.arranged (Dictionary.ofEntries (Value.arrangedEntries entries)) =
          Dictionary.ofEntries (Value.arrangedEntries (entries ++ [(key, value)])) := by
        rw [Value.arrangedEntries_eq, Value.arrangedEntries_eq, List.map_append, List.map_singleton,
          Dictionary.ofEntries_concat]
      rw [grown, List.cons_append, show Value.spellEntries entries ++ spellBytes key ++ value.spell =
        Value.spellEntries (entries ++ [(key, value)]) by simp [Value.spellEntries_eq]]
      rw [Value.shortEntries_iff] at shortEntries
      refine .dict (distinct_concat distinctEntries new distinct) (Value.shortEntries_iff.mpr ?_)
      intro entry member
      rcases List.mem_append.mp member with earlier | last
      · exact shortEntries entry earlier
      · rw [List.mem_singleton.mp last]
        exact ⟨shortKey, short⟩

private theorem open_arrived {frame : Frame} {marker : UInt8} (filled : Filled [marker] frame) {read : Bytes}
    {stack : List Frame} (opened : Opened read stack) (offset : Nat) (tokens : Tokenizer) :
    Arrived (read ++ [marker]) tokens (stack.length + 1) (openFrame frame offset tokens stack) := by
  rw [openFrame]
  split_ifs with key full
  · trivial
  · trivial
  · exact ⟨rfl, rfl, .cons opened (by simpa using key) filled⟩

private theorem close_arrived {read : Bytes} {stack : List Frame} (opened : Opened read stack) (offset : Nat)
    (tokens : Tokenizer) : Arrived (read ++ [101]) tokens (stack.length - 1) (closeFrame offset tokens stack) := by
  cases opened with
  | nil => trivial
  | @cons before text frame outer opened outside filled =>
    cases filled with
    | @list items distinct short =>
      have whole := @place_arrived (.list items) distinct short before outer opened outside tokens
      rw [List.append_assoc, List.cons_append, closeFrame, List.reverse_reverse]
      exact whole
    | @dict entries distinct short =>
      have whole := @place_arrived (.dict entries) distinct short before outer opened outside tokens
      rw [Value.arranged, ← Dictionary.ofEntries_eq_mergeSort (Value.keys_arrangedEntries entries ▸ distinct.1)] at whole
      rw [List.append_assoc, List.cons_append, closeFrame]
      exact whole
    | key => trivial

private theorem accept_arrived {token : Token} {read : Bytes} {stack : List Frame} (opened : Opened read stack)
    (fits : token.Fits stack.length) (offset : Nat) (tokens : Tokenizer) :
    Arrived (read ++ token.lexeme) tokens (token.level stack.length) (accept token offset tokens stack) := by
  cases token with
  | dictStart => exact open_arrived (@Filled.dict [] ⟨List.nodup_nil, trivial⟩ trivial) opened offset tokens
  | listStart => exact open_arrived (@Filled.list [] trivial trivial) opened offset tokens
  | close => exact close_arrived opened offset tokens
  | int number =>
    simp only [accept]
    split_ifs with key
    · trivial
    · exact @place_arrived (.int number) trivial trivial read stack opened (by simpa using key) tokens
  | bytes content =>
    simp only [accept]
    split
    · next dict outer =>
      split_ifs with known
      · trivial
      · cases opened with
        | @cons before text _ _ opened outside filled =>
          cases filled with
          | @dict entries distinct short =>
            refine ⟨rfl, rfl, ?_⟩
            rw [List.append_assoc, List.cons_append]
            refine .cons opened outside (.key distinct short ?_ fits)
            intro member
            rw [Dictionary.contains_iff, Dictionary.mem_keys_ofEntries, Value.keys_arrangedEntries] at known
            exact known member
    · next other =>
      refine @place_arrived (.bytes content) trivial fits read stack opened ?_ tokens
      unfold awaitingKey
      split
      · next dict outer => exact absurd rfl (other dict outer)
      · rfl

theorem Reading.step {input read : Bytes} {d : Decoder} (reading : Reading input read d) {progress : Progress}
    (stepped : d.step = .ok progress) :
    (∃ d' read', progress = .more d' ∧ Reading input read' d') ∨
    (∃ dict stop entries more, progress = .complete dict stop ∧ input = (Value.dict entries).spell ++ more ∧
      stop = (Value.dict entries).spell.length ∧ (Value.dict entries).Distinct ∧ (Value.dict entries).Short) := by
  rw [Decoder.step] at stepped
  split at stepped
  · simp at stepped
  · simp at stepped
  · next token tokens next =>
    obtain ⟨-, fits, more, isRest, rfl⟩ := Tokenizer.next_eq_some_iff.mp next
    have arrived := accept_arrived reading.opened (reading.depth ▸ fits) d.tokens.position (d.tokens.behind token more)
    rw [stepped] at arrived
    have isInput : input = read ++ token.lexeme ++ more := by rw [reading.input_eq, isRest, List.append_assoc]
    have position : d.tokens.position + token.lexeme.length = (read ++ token.lexeme).length := by
      rw [reading.position, List.length_append]
    cases progress with
    | more d' =>
      obtain ⟨after, depth, opened⟩ := arrived
      refine .inl ⟨d', _, rfl, ?_, opened, ?_, ?_⟩
      · rw [after]; exact isInput
      · rw [after]; exact position
      · rw [after, depth, ← reading.depth]; rfl
    | complete dict stop =>
      obtain ⟨isStop, entries, isRead, distinct, short⟩ := arrived
      exact .inr ⟨dict, stop, entries, more, rfl, isRead ▸ isInput, isStop.trans (isRead ▸ position), distinct, short⟩

theorem Reading.run {input : Bytes} {steps : Nat} : ∀ {read : Bytes} {d : Decoder} {dict : Dict} {stop : Nat},
    Reading input read d → run steps d = .ok (dict, stop) →
    ∃ entries more, input = (Value.dict entries).spell ++ more ∧ stop = (Value.dict entries).spell.length ∧
      (Value.dict entries).Distinct ∧ (Value.dict entries).Short := by
  induction steps with
  | zero => intro read d dict stop _ ran; simp [Decoder.run] at ran
  | succ steps ih =>
    intro read d dict stop reading ran
    rw [Decoder.run] at ran
    split at ran
    · simp at ran
    · next stepped =>
      rcases reading.step stepped with ⟨d', read', same, -⟩ | ⟨_, _, entries, more, same, isInput, isStop, regular⟩
      · simp at same
      · obtain ⟨rfl, rfl⟩ := Prod.mk.inj (Except.ok.inj ran)
        obtain ⟨rfl, rfl⟩ := Progress.complete.inj same
        exact ⟨entries, more, isInput, isStop, regular⟩
    · next stepped =>
      rcases reading.step stepped with ⟨d', read', same, after⟩ | ⟨_, _, _, _, same, -⟩
      · rw [Progress.more.inj same] at ran
        exact ih after ran
      · simp at same

end Decoder

open Decoder

/-- What is read in full is the text of a dictionary at the start of the input. -/
theorem spell_of_decodeStart {input : Bytes} {dict : Dict} {stop : Nat} (read : decodeStart input = .ok (dict, stop)) :
    ∃ entries more, input = (Value.dict entries).spell ++ more ∧ stop = (Value.dict entries).spell.length ∧
      (Value.dict entries).Distinct ∧ (Value.dict entries).Short := by
  unfold decodeStart at read
  split at read
  · simp at read
  · split_ifs at read
    exact Reading.run ⟨rfl, .nil, rfl, rfl⟩ read

theorem orTooDeep_eq_ok_iff {value : Value} {result : Dict × Nat} {r : Dict × Nat} :
    orTooDeep (value.openings 0 0) (.ok result) = .ok r ↔ value.nesting ≤ maxDepth ∧ result = r := by
  have deep := value.firstTooDeep_isSome
  unfold Value.firstTooDeep at deep
  unfold orTooDeep
  split
  · next found =>
    rw [found] at deep
    simp only [Option.isSome_some, true_iff] at deep
    simp only [reduceCtorEq, false_iff, not_and]
    intro shallow
    omega
  · next found =>
    rw [found] at deep
    simp only [Option.isSome_none, Bool.false_eq_true, false_iff] at deep
    simp only [Except.ok.injEq, iff_and_self]
    intro _
    omega

/-- Whatever stands behind it, a text is read as a message exactly if it is the text of the dictionary read. -/
theorem decodeStart_append_iff {input : Bytes} {dict : Dict} {stop : Nat} :
    decodeStart input = .ok (dict, stop) ↔ ∃ entries more, input = (Value.dict entries).spell ++ more ∧
      stop = (Value.dict entries).spell.length ∧ (Value.dict entries).Distinct ∧ (Value.dict entries).Short ∧
      (Value.dict entries).nesting ≤ maxDepth ∧ (Value.dict entries).arranged = .dict dict := by
  constructor
  · intro read
    obtain ⟨entries, more, rfl, rfl, distinct, short⟩ := spell_of_decodeStart read
    rw [decodeStart_spell short distinct, orTooDeep_eq_ok_iff] at read
    obtain ⟨shallow, same⟩ := read
    refine ⟨entries, more, rfl, rfl, distinct, short, shallow, ?_⟩
    rw [Value.arranged, (Prod.mk.inj same).1]
  · rintro ⟨entries, more, rfl, rfl, distinct, short, shallow, means⟩
    rw [decodeStart_spell short distinct, orTooDeep_eq_ok_iff]
    exact ⟨shallow, congrArg (·, _) (by simpa [Value.arranged] using means)⟩

/-- The reader accepts exactly the messages of the grammar, at one place of the input at most, and what
stands behind a message has no influence. -/
theorem decodeStart_iff_message {input : Bytes} (small : input.length < 2 ^ 63) :
    (∀ dict stop, decodeStart input = .ok (dict, stop) ↔ stop ≤ input.length ∧ Message (input.take stop) dict) ∧
    (∀ dict stop dict' stop', stop ≤ input.length → Message (input.take stop) dict →
      stop' ≤ input.length → Message (input.take stop') dict' → dict = dict' ∧ stop = stop') ∧
    (∀ dict stop behind, decodeStart input = .ok (dict, stop) →
      decodeStart (input.take stop ++ behind) = .ok (dict, stop)) := by
  have accepted : ∀ dict stop, decodeStart input = .ok (dict, stop) ↔
      stop ≤ input.length ∧ Message (input.take stop) dict := by
    intro dict stop
    rw [decodeStart_append_iff]
    constructor
    · rintro ⟨entries, more, rfl, rfl, distinct, short, shallow, means⟩
      refine ⟨by simp, entries, ?_, shallow, means⟩
      rw [List.take_left]
      exact (spells_iff short).mpr ⟨rfl, distinct⟩
    · rintro ⟨inside, entries, spelled, shallow, means⟩
      have short := short_of_spells spelled (by rw [List.length_take]; omega)
      obtain ⟨isText, distinct⟩ := (spells_iff short).mp spelled
      refine ⟨entries, input.drop stop, ?_, ?_, distinct, short, shallow, means⟩
      · rw [← isText, List.take_append_drop]
      · rw [← isText, List.length_take]
        omega
  refine ⟨accepted, ?_, ?_⟩
  · intro dict stop dict' stop' inside message inside' message'
    have one := (accepted dict stop).mpr ⟨inside, message⟩
    have two := (accepted dict' stop').mpr ⟨inside', message'⟩
    exact Prod.mk.inj (Except.ok.inj (one.symm.trans two))
  · intro dict stop behind read
    obtain ⟨entries, more, rfl, rfl, regular⟩ := decodeStart_append_iff.mp read
    rw [List.take_left]
    exact decodeStart_append_iff.mpr ⟨entries, behind, rfl, rfl, regular⟩

/-- Keys out of order, a negative number in a list, and a byte behind the message. -/
theorem message_of_unordered_keys :
    ([100, 49, 58, 98, 49, 58, 121, 49, 58, 97, 108, 105, 45, 49, 101, 101, 101, 33] : Bytes).length < 2 ^ 63 ∧
      Message [100, 49, 58, 98, 49, 58, 121, 49, 58, 97, 108, 105, 45, 49, 101, 101, 101]
        [([97], .list [.int (-1)]), ([98], .bytes [121])] :=
  ⟨by decide, (((@decodeStart_iff_message [100, 49, 58, 98, 49, 58, 121, 49, 58, 97, 108, 105, 45, 49, 101, 101, 101,
    33] (by decide)).1 _ 17).mp rfl).2⟩

end PeerSubstrate.Bencode
