import PeerSubstrate.Proofs.Bencode.Acceptance
import PeerSubstrate.Proofs.Bencode.LexicalFaults

/-!
# Faults of a message

What is read of a message before its end is a text of open containers, one inside of another (`Unfinished`).
Every error is located at the earliest place where the text has ceased to be the beginning of a message, and
says what stands there (`decodeStart_fault`).
-/

namespace PeerSubstrate.Bencode

/-- A container that has not been closed: what it holds so far, and the key that waits for its value. -/
inductive Open where
  | list (items : List Value)
  | dict (entries : List (Bytes × Value)) (key : Option Bytes)

/-- `text` begins a container and does not close it. -/
inductive Begins : Bytes → Open → Prop
  | list {text : Bytes} {items : List Value} : SpellsItems text items → Begins (108 :: text) (.list items)
  | dict {text : Bytes} {entries : List (Bytes × Value)} : SpellsEntries text entries →
      (entries.map Prod.fst).Nodup → Begins (100 :: text) (.dict entries none)
  | key {text name key : Bytes} {entries : List (Bytes × Value)} : SpellsEntries text entries →
      (entries.map Prod.fst).Nodup → ByteString name key → key ∉ entries.map Prod.fst →
      Begins (100 :: (text ++ name)) (.dict entries (some key))

/-- `text` begins containers inside of one another, the innermost one first in the list, each of them where a value
is due. -/
inductive Unfinished : Bytes → List Open → Prop
  | nil : Unfinished [] []
  | inside {text more : Bytes} {outer : List Open} {container : Open} : Unfinished text outer →
      (∀ entries others, outer ≠ .dict entries none :: others) → Begins more container →
      Unfinished (text ++ more) (container :: outer)

/-- What an error says of the text before its offset and of the text from there on. -/
def Described (read rest : Bytes) : DecodeError.Kind → Prop
  | .notADictionary => read = [] ∧ ∃ byte more, rest = byte :: more ∧ byte ≠ 100
  | .duplicateKey key => ∃ name more entries outer, ByteString name key ∧ rest = name ++ more ∧
      Unfinished read (.dict entries none :: outer) ∧ key ∈ entries.map Prod.fst
  | .nonStringKey => ∃ byte more entries outer, (byte = 100 ∨ byte = 105 ∨ byte = 108) ∧ rest = byte :: more ∧
      Unfinished read (.dict entries none :: outer)
  | .missingValue => ∃ more entries key outer, rest = 101 :: more ∧ Unfinished read (.dict entries (some key) :: outer)
  | .tooDeep => ∃ byte more containers, (byte = 100 ∨ byte = 108) ∧ rest = byte :: more ∧
      Unfinished read containers ∧ containers.length = maxDepth
  | kind => LexicalFault rest kind

/-- Only an end of input is found where the input ends. -/
theorem Described.end {read : Bytes} {kind : DecodeError.Kind} (described : Described read [] kind) :
    kind = .unexpectedEnd := by
  cases kind with
  | unexpectedEnd => rfl
  | duplicateKey key =>
    obtain ⟨_, _, _, _, ⟨_⟩, empty, _⟩ := described
    simp at empty
  | integerOverflow =>
    obtain ⟨_, _, _, _, _, numeral, empty, _⟩ := described
    simp [numeral.nonempty] at empty
  | unexpectedByte | notADictionary | leadingZero | negativeZero | emptyNumber | lengthOverrun | nonStringKey | missingValue |
    tooDeep => simp [Described, LexicalFault] at described

private theorem LexicalFault.described {read rest : Bytes} {kind : DecodeError.Kind} (fault : LexicalFault rest kind) :
    Described read rest kind := by
  cases kind with
  | notADictionary | duplicateKey | nonStringKey | missingValue | tooDeep => exact fault.elim
  | _ => exact fault

/-- Inside of a value there is always another token. -/
theorem Tokenizer.next_ne_none {t : Tokenizer} (going : t.finished = false) : t.next.1 ≠ .ok none := by
  intro ended
  obtain ⟨rest, position, depth, finished⟩ := t
  simp only at going
  subst going
  cases rest with
  | nil => simp [next] at ended
  | cons byte rest =>
    simp only [next, Bool.false_eq_true, if_false, accepted] at ended
    split_ifs at ended <;> first | cases ended | (split at ended <;> cases ended)

namespace Decoder

/-- A frame shows what its container holds. -/
def Shows : Frame → Open → Prop
  | .list _, .list _ => True
  | .dict dict key, .dict entries key' => key = key' ∧ ∀ k, k ∈ dict.map Prod.fst ↔ k ∈ entries.map Prod.fst
  | _, _ => False

private theorem Filled.begins {text : Bytes} {frame : Frame} (filled : Filled text frame) :
    ∃ container, Begins text container ∧ Shows frame container := by
  have sameKeys : ∀ (entries : List (Bytes × Value)) (k : Bytes),
      k ∈ (Dictionary.ofEntries (Value.arrangedEntries entries)).map Prod.fst ↔ k ∈ entries.map Prod.fst := by
    intro entries k
    rw [Dictionary.mem_keys_ofEntries, Value.keys_arrangedEntries]
  cases filled with
  | @list items distinct short => exact ⟨.list items, .list ((spellsItems_iff short).mpr ⟨rfl, distinct⟩), trivial⟩
  | @dict entries distinct short =>
    exact ⟨.dict entries none, .dict ((spellsEntries_iff short).mpr ⟨rfl, distinct.2⟩) distinct.1, rfl, sameKeys entries⟩
  | @key entries key distinct short new shortKey =>
    refine ⟨.dict entries (some key), .key ((spellsEntries_iff short).mpr ⟨rfl, distinct.2⟩) distinct.1 ?_ new, rfl, sameKeys entries⟩
    exact (byteString_iff_spellBytes shortKey).mpr rfl

private theorem Opened.unfinished {read : Bytes} {stack : List Frame} (opened : Opened read stack) :
    ∃ containers, Unfinished read containers ∧ List.Forall₂ Shows stack containers := by
  induction opened with
  | nil => exact ⟨[], .nil, .nil⟩
  | @cons before text frame outer opened outside filled ih =>
    obtain ⟨containers, unfinished, shows⟩ := ih
    obtain ⟨container, begins, shown⟩ := filled.begins
    refine ⟨container :: containers, .inside unfinished ?_ begins, .cons shown shows⟩
    rintro entries others rfl
    cases shows with
    | @cons frame' _ _ _ first _ =>
      cases frame' with
      | list => exact first.elim
      | dict dict key =>
        rw [first.1] at outside
        cases outside

/-- Where a key is due, the innermost container is a dictionary whose keys the frame shows. -/
theorem Opened.atKey {read : Bytes} {dict : Dict} {key : Option Bytes} {outer : List Frame}
    (opened : Opened read (.dict dict key :: outer)) : ∃ entries containers,
      Unfinished read (.dict entries key :: containers) ∧ ∀ k, k ∈ dict.map Prod.fst ↔ k ∈ entries.map Prod.fst := by
  obtain ⟨containers, unfinished, shows⟩ := opened.unfinished
  cases shows with
  | @cons _ container _ containers first _ =>
    cases container with
    | list => exact first.elim
    | dict entries key' =>
      obtain ⟨rfl, same⟩ := first
      exact ⟨entries, containers, unfinished, same⟩

/-! ## A refused token -/

theorem place_error {value : Value} {tokens : Tokenizer} {stack : List Frame} {e : DecodeError}
    (refused : place value tokens stack = .error e) : stack = [] ∧ ∀ entries, value ≠ .dict entries := by
  unfold place at refused
  split at refused
  · split at refused
    · cases refused
    · next other => exact ⟨rfl, other⟩
  all_goals cases refused

/-- The outermost container of what begins like a message is no list. -/
theorem Opened.not_list {read : Bytes} {newest : List Value} (opened : Opened read [.list newest]) : read.head? ≠ some 100 := by
  cases opened with
  | cons outside _ filled =>
    cases outside
    cases filled
    simp

private theorem Opened.nonStringKey {read rest : Bytes} {stack : List Frame} {byte : UInt8} (opened : Opened read stack)
    (atKey : awaitingKey stack = true) (begins : byte = 100 ∨ byte = 105 ∨ byte = 108) :
    Described read (byte :: rest) .nonStringKey := by
  unfold awaitingKey at atKey
  split at atKey
  · obtain ⟨entries, containers, unfinished, -⟩ := opened.atKey
    exact ⟨byte, rest, entries, containers, begins, rfl, unfinished⟩
  · cases atKey

private theorem open_fault {frame : Frame} {marker : UInt8} {read more : Bytes} {stack : List Frame} {offset : Nat}
    {tokens : Tokenizer} {e : DecodeError} (opened : Opened read stack) (shallow : stack.length ≤ maxDepth)
    (isMarker : marker = 100 ∨ marker = 108) (refused : openFrame frame offset tokens stack = .error e) :
    e.offset = offset ∧ Described read (marker :: more) e.kind := by
  rw [openFrame] at refused
  split_ifs at refused with atKey full
  · cases refused
    exact ⟨rfl, opened.nonStringKey atKey (isMarker.imp_right .inr)⟩
  · cases refused
    obtain ⟨containers, unfinished, shows⟩ := opened.unfinished
    have same := shows.length_eq
    exact ⟨rfl, marker, more, containers, isMarker, rfl, unfinished, by omega⟩

private theorem close_fault {read more : Bytes} {stack : List Frame} {offset : Nat} {tokens : Tokenizer} {e : DecodeError}
    (opened : Opened read stack) (inside : stack ≠ []) (root : read.head? = some 100)
    (refused : closeFrame offset tokens stack = .error e) : e.offset = offset ∧ Described read (101 :: more) e.kind := by
  unfold closeFrame at refused
  split at refused
  · exact absurd rfl inside
  · cases refused
    obtain ⟨entries, containers, unfinished, -⟩ := opened.atKey
    exact ⟨rfl, more, entries, _, containers, rfl, unfinished⟩
  · exact absurd rfl ((place_error refused).2 _)
  · obtain ⟨rfl, -⟩ := place_error refused
    exact absurd root opened.not_list

/-- A token is refused for what the error says, and where the token begins. -/
theorem accept_fault {token : Token} {read more : Bytes} {stack : List Frame} {offset : Nat} {tokens : Tokenizer}
    {e : DecodeError} (opened : Opened read stack) (fits : token.Fits stack.length) (shallow : stack.length ≤ maxDepth)
    (root : (read ++ token.lexeme).head? = some 100) (refused : accept token offset tokens stack = .error e) :
    e.offset = offset ∧ Described read (token.lexeme ++ more) e.kind := by
  -- A complete value is refused only outside of all containers, where the message begins.
  have outside : ∀ {value : Value}, place value tokens stack = .error e → token.lexeme.head? = some 100 := by
    intro value failed
    obtain ⟨rfl, -⟩ := place_error failed
    cases opened
    exact root
  cases token with
  | dictStart => exact open_fault opened shallow (.inl rfl) refused
  | listStart => exact open_fault opened shallow (.inr rfl) refused
  | close =>
    have inside : stack ≠ [] := List.length_pos_iff.mp fits
    refine close_fault opened inside ?_ refused
    cases opened with
    | nil => exact absurd rfl inside
    | @cons before text _ _ _ _ filled =>
      have nonempty : before ++ text ≠ [] := by
        cases filled <;> simp
      rw [← List.head?_append_of_ne_nil _ nonempty]
      exact root
  | int number =>
    simp only [accept] at refused
    split_ifs at refused with atKey
    · cases refused
      exact ⟨rfl, opened.nonStringKey atKey (.inr (.inl rfl))⟩
    · exact absurd (outside refused) (by simp [Token.lexeme])
  | bytes content =>
    simp only [accept] at refused
    split at refused
    · split_ifs at refused with known
      cases refused
      obtain ⟨entries, containers, unfinished, same⟩ := opened.atKey
      rw [Dictionary.contains_iff, same] at known
      exact ⟨rfl, _, more, entries, containers, (byteString_iff_spellBytes fits).mpr rfl, rfl, unfinished, known⟩
    · obtain ⟨byte, text, isLexeme, isOne⟩ := Token.spellBytes_eq_cons fits
      have first := outside refused
      rw [Token.lexeme, isLexeme, List.head?_cons, Option.some_inj] at first
      rw [first] at isOne
      exact absurd isOne (by decide)

/-! ## A run that fails -/

/-- The reader in front of another text. -/
def withRest (d : Decoder) (rest : Bytes) : Decoder := { d with tokens := d.tokens.withRest rest }

/-- The reader inside of a message, not at its end. -/
structure Inside (input read : Bytes) (d : Decoder) : Prop extends Reading input read d where
  going : d.tokens.finished = false
  shallow : d.stack.length ≤ maxDepth
  root : input.head? = some 100

/-- Behind `read`, the reader fails: cut off at the offset of the error, the input ends too early, and the error says
what stands there. -/
def Fails (d : Decoder) (read : Bytes) (e : DecodeError) : Prop :=
  ∃ before behind, d.tokens.rest = before ++ behind ∧ e.offset = d.tokens.position + before.length ∧
    (d.withRest before).outcome = .error ⟨e.offset, .unexpectedEnd⟩ ∧ Described (read ++ before) behind e.kind

private theorem place_moved {value : Value} {tokens : Tokenizer} {stack : List Frame} {d : Decoder}
    (placed : place value tokens stack = .ok (.more d)) (tokens' : Tokenizer) :
    place value tokens' stack = .ok (.more { d with tokens := tokens' }) ∧ d.stack.length = stack.length ∧ stack ≠ [] := by
  unfold place at placed ⊢
  split at placed
  · split at placed <;> cases placed
  all_goals
    cases placed
    exact ⟨rfl, rfl, List.cons_ne_nil _ _⟩

/-- A token that is taken in leads to the same containers wherever it stands, inside of at least one. -/
theorem accept_moved {token : Token} {offset : Nat} {tokens : Tokenizer} {stack : List Frame} {d : Decoder}
    (accepted : accept token offset tokens stack = .ok (.more d)) (tokens' : Tokenizer) :
    accept token offset tokens' stack = .ok (.more { d with tokens := tokens' }) ∧ d.stack ≠ [] ∧
      (stack.length ≤ maxDepth → d.stack.length ≤ maxDepth) := by
  have placed : ∀ {value : Value} {outer : List Frame}, outer.length ≤ stack.length →
      place value tokens outer = .ok (.more d) →
      place value tokens' outer = .ok (.more { d with tokens := tokens' }) ∧ d.stack ≠ [] ∧
        (stack.length ≤ maxDepth → d.stack.length ≤ maxDepth) := by
    intro value outer inside placed
    obtain ⟨moved, same, nonempty⟩ := place_moved placed tokens'
    have positive := List.length_pos_iff.mpr nonempty
    exact ⟨moved, List.length_pos_iff.mp (by omega), by omega⟩
  cases token with
  | dictStart | listStart =>
    simp only [accept, openFrame] at accepted ⊢
    split_ifs at accepted ⊢ with atKey full
    cases accepted
    refine ⟨rfl, List.cons_ne_nil _ _, fun _ => ?_⟩
    rw [List.length_cons]
    omega
  | close =>
    simp only [accept, closeFrame] at accepted ⊢
    split at accepted
    · cases accepted
    · cases accepted
    · exact placed (by simp) accepted
    · exact placed (by simp) accepted
  | int number =>
    simp only [accept] at accepted ⊢
    split_ifs at accepted ⊢ with atKey
    exact placed (Nat.le_refl _) accepted
  | bytes content =>
    simp only [accept] at accepted ⊢
    split at accepted
    · split_ifs at accepted ⊢ with known
      cases accepted
      exact ⟨rfl, List.cons_ne_nil _ _, id⟩
    · exact placed (Nat.le_refl _) accepted

/-- A step that goes on takes a text in, and would do so whatever stands behind that text. -/
theorem step_moved {d d' : Decoder} (stepped : d.step = .ok (.more d')) : ∃ text,
    d.tokens.rest = text ++ d'.tokens.rest ∧ d'.tokens.position = d.tokens.position + text.length ∧
      ∀ others, (d.withRest (text ++ others)).step = .ok (.more (d'.withRest others)) := by
  obtain ⟨token, next, accepted⟩ := next_of_step stepped
  obtain ⟨going, fits, more, isRest, after⟩ := Tokenizer.next_eq_some_iff.mp next
  refine ⟨token.lexeme, ?_, ?_, ?_⟩
  · rw [after]
    exact isRest
  · rw [after]
    rfl
  · intro others
    have read : (d.withRest (token.lexeme ++ others)).tokens.next = (.ok (some token), (d'.withRest others).tokens) := by
      refine Tokenizer.next_eq_some_iff.mpr ⟨going, fits, others, rfl, ?_⟩
      rw [withRest, after]
      rfl
    rw [step_of_next read]
    exact (accept_moved accepted (d'.withRest others).tokens).1

theorem Inside.step {input read : Bytes} {d d' : Decoder} (inside : Inside input read d)
    (stepped : d.step = .ok (.more d')) : ∃ text, Inside input (read ++ text) d' ∧
      d.tokens.rest = text ++ d'.tokens.rest ∧ d'.tokens.position = d.tokens.position + text.length ∧
      ∀ others, (d.withRest (text ++ others)).step = .ok (.more (d'.withRest others)) := by
  obtain ⟨text, isRest, position, moved⟩ := step_moved stepped
  obtain ⟨token, next, accepted⟩ := next_of_step stepped
  obtain ⟨-, -, more, -, after⟩ := Tokenizer.next_eq_some_iff.mp next
  obtain ⟨-, nonempty, shallow⟩ := accept_moved accepted d'.tokens
  obtain ⟨_, read', same, reading⟩ | ⟨_, _, _, _, same, -⟩ := inside.toReading.step stepped
  · cases same
    have isRead : read' = read ++ text := by
      have two := reading.input_eq
      rw [inside.input_eq, isRest, ← List.append_assoc] at two
      exact (List.append_cancel_right two).symm
    refine ⟨text, ⟨isRead ▸ reading, ?_, shallow inside.shallow, inside.root⟩, isRest, position, moved⟩
    have depth : d'.tokens.depth ≠ 0 := by
      rw [reading.depth]
      exact Nat.pos_iff_ne_zero.mp (List.length_pos_iff.mpr nonempty)
    rw [after] at depth ⊢
    simpa [Tokenizer.behind] using depth
  · cases same

private theorem outcome_of_next {d : Decoder} {e : DecodeError} (failed : d.tokens.next.1 = .error e) :
    d.outcome = .error e := by
  rw [outcome_eq, Decoder.step]
  split
  · next read =>
    rw [read] at failed
    exact congrArg Except.error (Except.error.inj failed)
  all_goals
    next read =>
      rw [read] at failed
      cases failed

private theorem Inside.step_fails {input read : Bytes} {d : Decoder} {e : DecodeError} (inside : Inside input read d)
    (failed : d.step = .error e) : d.Fails read e := by
  rw [Decoder.step] at failed
  split at failed
  · next next =>
    cases failed
    obtain ⟨before, behind, isRest, offset, ends, fault⟩ := Tokenizer.next_fault inside.going (congrArg Prod.fst next)
    exact ⟨before, behind, isRest, offset, outcome_of_next ends, fault.described⟩
  · next next => exact absurd (congrArg Prod.fst next) (Tokenizer.next_ne_none inside.going)
  · next token tokens next =>
    obtain ⟨-, fits, more, isRest, rfl⟩ := Tokenizer.next_eq_some_iff.mp next
    have root : (read ++ token.lexeme).head? = some 100 := by
      have nonempty : read ++ token.lexeme ≠ [] := by simp [token.lexeme_ne_nil]
      rw [← @List.head?_append_of_ne_nil _ _ more nonempty, List.append_assoc, ← isRest, ← inside.input_eq]
      exact inside.root
    obtain ⟨offset, described⟩ : _ ∧ Described read (token.lexeme ++ more) e.kind :=
      accept_fault inside.opened (inside.depth ▸ fits) inside.shallow root failed
    refine ⟨[], d.tokens.rest, rfl, offset, ?_, ?_⟩
    · rw [offset]
      exact outcome_of_next (Tokenizer.next_nil inside.going)
    · rw [List.append_nil, isRest]
      exact described

private theorem Inside.run_fails {input : Bytes} {e : DecodeError} {steps : Nat} : ∀ {read : Bytes} {d : Decoder},
    Inside input read d → d.tokens.rest.length < steps → run steps d = .error e → d.Fails read e := by
  induction steps with
  | zero =>
    intro read d _ few
    omega
  | succ steps ih =>
    intro read d inside enough failed
    rw [Decoder.run] at failed
    split at failed
    · next stepped =>
      cases failed
      exact inside.step_fails stepped
    · cases failed
    · next d' stepped =>
      obtain ⟨text, inside', isRest, position, moved⟩ := inside.step stepped
      have shorter := rest_length_lt stepped
      obtain ⟨before, behind, isRest', offset, ends, described⟩ := ih inside' (by omega) failed
      refine ⟨text ++ before, behind, ?_, ?_, ?_, ?_⟩
      · rw [isRest, isRest', List.append_assoc]
      · rw [offset, position, List.length_append]
        omega
      · rw [outcome_eq, moved before]
        exact ends
      · rw [← List.append_assoc]
        exact described

end Decoder

open Decoder

/-- A message fails somewhere: what stands before that place is the beginning of a message. -/
theorem exists_fault {input : Bytes} {e : DecodeError} (failed : decodeStart input = .error e) :
    ∃ before behind, input = before ++ behind ∧ e.offset = before.length ∧
      decodeStart before = .error ⟨e.offset, .unexpectedEnd⟩ ∧ Described before behind e.kind := by
  unfold decodeStart at failed
  split at failed
  · cases failed
    exact ⟨[], [], rfl, rfl, rfl, rfl⟩
  · next byte rest =>
    -- The first byte tells whether the reader starts at all.
    by_cases isDict : byte = 100
    · subst isDict
      have inside : Inside (100 :: rest) [] { tokens := .ofInput (100 :: rest) } :=
        ⟨⟨rfl, .nil, rfl, rfl⟩, rfl, Nat.zero_le _, rfl⟩
      obtain ⟨before, behind, isInput, offset, ends, described⟩ := inside.run_fails (Nat.lt_succ_self _) failed
      have position : e.offset = before.length := offset.trans (Nat.zero_add _)
      refine ⟨before, behind, isInput, position, ?_, described⟩
      cases before with
      | nil =>
        rw [position]
        rfl
      | cons first before =>
        obtain ⟨rfl, -⟩ := List.cons.inj isInput
        exact ends
    · rw [if_neg isDict] at failed
      cases failed
      exact ⟨[], byte :: rest, rfl, rfl, rfl, rfl, byte, rest, rfl, isDict⟩

/-- Errors are true, and the earliest possible: the text before the offset is the beginning of a message, and what
the error says of the input is so at that place. -/
theorem decodeStart_fault {input : Bytes} {e : DecodeError} (failed : decodeStart input = .error e) :
    e.offset ≤ input.length ∧ (e.offset = input.length ↔ e.kind = .unexpectedEnd) ∧
    decodeStart (input.take e.offset) = .error ⟨e.offset, .unexpectedEnd⟩ ∧
    Described (input.take e.offset) (input.drop e.offset) e.kind := by
  obtain ⟨before, behind, isInput, offset, ends, described⟩ := exists_fault failed
  subst isInput
  rw [offset, List.take_left, List.drop_left, ← offset]
  refine ⟨by simp [offset], ⟨fun atEnd => ?_, fun isEnd => ?_⟩, ends, described⟩
  · have nothing : behind = [] := by
      rw [offset, List.length_append] at atEnd
      exact List.length_eq_zero_iff.mp (by omega)
    exact Described.end (nothing ▸ described)
  · rw [isEnd] at described
    have nothing : behind = [] := described
    simp [offset, nothing]

/-- `d1:xd1:ai1e1:al`: the inner dictionary has its key twice, which is what counts, and not that the input ends later on. -/
theorem second_key_described :
    decodeStart [100, 49, 58, 120, 100, 49, 58, 97, 105, 49, 101, 49, 58, 97, 108] = .error ⟨11, .duplicateKey [97]⟩ ∧
    decodeStart [100, 49, 58, 120, 100, 49, 58, 97, 105, 49, 101] = .error ⟨11, .unexpectedEnd⟩ ∧
    Described [100, 49, 58, 120, 100, 49, 58, 97, 105, 49, 101] [49, 58, 97, 108] (.duplicateKey [97]) :=
  ⟨rfl, (@decodeStart_fault [100, 49, 58, 120, 100, 49, 58, 97, 105, 49, 101, 49, 58, 97, 108]
    ⟨11, .duplicateKey [97]⟩ rfl).2.2⟩

end PeerSubstrate.Bencode
