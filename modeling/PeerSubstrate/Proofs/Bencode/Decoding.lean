import PeerSubstrate.Bencode.Decoding
import PeerSubstrate.Proofs.Bencode.Dictionary
import PeerSubstrate.Proofs.Bencode.Lexeme
import PeerSubstrate.Proofs.Bencode.Nesting

/-!
# The reader on the text of a value

The reader works through the text of a value as if it placed the whole value at once, unless a
container opens too deep (`outcome_spell`); so it reads the text of a dictionary back
(`decodeStart_spell`).
-/

namespace PeerSubstrate.Bencode
namespace Decoder

/-- What the reader comes to in the end. -/
def outcome (d : Decoder) : Except DecodeError (Dict × Nat) := run (d.tokens.rest.length + 1) d

/-- What it comes to after a step. -/
def conclude : Except DecodeError Progress → Except DecodeError (Dict × Nat)
  | .error e => .error e
  | .ok (.complete dict stop) => .ok (dict, stop)
  | .ok (.more d) => d.outcome

private theorem place_more {value : Value} {tokens : Tokenizer} {stack : List Frame} {d : Decoder}
    (placed : place value tokens stack = .ok (.more d)) : d.tokens = tokens := by
  revert placed
  unfold place
  split <;> (try split) <;> simp <;> rintro rfl <;> rfl

private theorem accept_more {token : Token} {offset : Nat} {tokens : Tokenizer} {stack : List Frame} {d : Decoder}
    (accepted : accept token offset tokens stack = .ok (.more d)) : d.tokens = tokens := by
  revert accepted
  cases token with
  | dictStart | listStart =>
    simp only [accept, openFrame]
    split_ifs
    · simp
    · simp
    · rintro ⟨⟩; rfl
  | close =>
    simp only [accept, closeFrame]
    split <;> first | exact place_more | simp
  | int number =>
    simp only [accept]
    split_ifs <;> first | exact place_more | simp
  | bytes content =>
    simp only [accept]
    split
    · split_ifs
      · simp
      · rintro ⟨⟩; rfl
    · exact place_more

/-- A step reads a token and takes it in. -/
theorem step_of_next {d : Decoder} {token : Token} {tokens : Tokenizer} (read : d.tokens.next = (.ok (some token), tokens)) :
    d.step = accept token d.tokens.position tokens d.stack := by
  rw [step, read]

/-- A step that goes on has read a token. -/
theorem next_of_step {d d' : Decoder} (stepped : d.step = .ok (.more d')) :
    ∃ token, d.tokens.next = (.ok (some token), d'.tokens) ∧
      accept token d.tokens.position d'.tokens d.stack = .ok (.more d') := by
  rw [step] at stepped
  split at stepped
  · simp at stepped
  · simp at stepped
  · next token tokens read =>
    have same := accept_more stepped
    exact ⟨token, by rw [read, same], by rw [same]; exact stepped⟩

theorem rest_length_lt {d d' : Decoder} (stepped : d.step = .ok (.more d')) :
    d'.tokens.rest.length < d.tokens.rest.length := by
  obtain ⟨token, read, -⟩ := next_of_step stepped
  obtain ⟨-, -, more, isRest, after⟩ := Tokenizer.next_eq_some_iff.mp read
  have positive := List.length_pos_iff.mpr token.lexeme_ne_nil
  rw [isRest, after, List.length_append]
  simp only [Tokenizer.behind]
  omega

/-- More steps than there are bytes left make no difference. -/
theorem run_stable {steps : Nat} : ∀ {others : Nat} {d : Decoder}, d.tokens.rest.length < steps →
    d.tokens.rest.length < others → run steps d = run others d := by
  induction steps with
  | zero => intro others d few; omega
  | succ steps ih =>
    intro others d enough alsoEnough
    cases others with
    | zero => omega
    | succ others =>
      rw [run, run]
      split
      · rfl
      · rfl
      · next d' stepped =>
        have shorter := rest_length_lt stepped
        exact ih (by omega) (by omega)

theorem outcome_eq (d : Decoder) : d.outcome = conclude d.step := by
  rw [outcome, run]
  cases stepped : d.step with
  | error e => rfl
  | ok progress =>
    cases progress with
    | complete dict stop => rfl
    | more d' =>
      have shorter := rest_length_lt stepped
      exact run_stable (by omega) (by omega)

/-- The refusal of the first container that opens too deep, or else `result`. -/
def orTooDeep (opened : List Opening) (result : Except DecodeError (Dict × Nat)) : Except DecodeError (Dict × Nat) :=
  match opened.find? fun o => o.level = maxDepth + 1 with
  | some o => .error ⟨o.offset, .tooDeep⟩
  | none => result

private theorem orTooDeep_append (one two : List Opening) (result : Except DecodeError (Dict × Nat)) :
    orTooDeep (one ++ two) result = orTooDeep one (orTooDeep two result) := by
  unfold orTooDeep
  rw [List.find?_append]
  cases one.find? fun o => o.level = maxDepth + 1 <;> rfl

private theorem orTooDeep_cons_of_lt {o : Opening} (opened : List Opening) (result : Except DecodeError (Dict × Nat))
    (shallow : o.level ≤ maxDepth) : orTooDeep (o :: opened) result = orTooDeep opened result := by
  unfold orTooDeep
  rw [List.find?_cons_of_neg]
  simp only [decide_eq_true_eq]
  omega

private theorem orTooDeep_cons_of_eq {o : Opening} (opened : List Opening) (result : Except DecodeError (Dict × Nat))
    (deep : o.level = maxDepth + 1) : orTooDeep (o :: opened) result = .error ⟨o.offset, .tooDeep⟩ := by
  unfold orTooDeep
  rw [List.find?_cons_of_pos (by simpa using deep)]

/-- The reader in front of a text, inside of the containers of a stack. -/
structure Before (text more : Bytes) (tokens : Tokenizer) (stack : List Frame) : Prop where
  rest : tokens.rest = text ++ more
  depth : tokens.depth = stack.length
  going : tokens.finished = false
  fits : stack.length ≤ maxDepth

/-- The reader behind a text, inside of `depth` containers. -/
def behindText (tokens : Tokenizer) (text more : Bytes) (depth : Nat) : Tokenizer :=
  ⟨more, tokens.position + text.length, depth, depth == 0⟩

private theorem behindText_append (tokens : Tokenizer) (one two between more : Bytes) (inner depth : Nat) :
    behindText (behindText tokens one between inner) two more depth = behindText tokens (one ++ two) more depth := by
  simp [behindText, Nat.add_assoc]

/-- Behind a part of a text, but still inside of a container, the reader is in front of the rest. -/
theorem before_behind (tokens : Tokenizer) (one two more : Bytes) {stack : List Frame} (inside : stack ≠ [])
    (fits : stack.length ≤ maxDepth) : Before two more (behindText tokens one (two ++ more) stack.length) stack :=
  ⟨rfl, rfl, by simpa [behindText] using inside, fits⟩

/-- In front of a text the reader is in front of its first part. -/
theorem Before.first {one two more : Bytes} {tokens : Tokenizer} {stack : List Frame}
    (before : Before (one ++ two) more tokens stack) : Before one (two ++ more) tokens stack :=
  ⟨by rw [before.rest, List.append_assoc], before.depth, before.going, before.fits⟩

private theorem accept_bytes {content : Bytes} {offset : Nat} {tokens : Tokenizer} {stack : List Frame}
    (value : awaitingKey stack = false) :
    accept (.bytes content) offset tokens stack = place (.bytes content) tokens stack := by
  simp only [accept]
  split
  · simp [awaitingKey] at value
  · rfl

/-- One token of a text is taken in. -/
theorem outcome_token (token : Token) {more : Bytes} {tokens : Tokenizer} {stack : List Frame}
    (before : Before token.lexeme more tokens stack) (fits : token.Fits stack.length) :
    outcome ⟨tokens, stack⟩ =
      conclude (accept token tokens.position (behindText tokens token.lexeme more (token.level stack.length)) stack) := by
  have read : tokens.next = (.ok (some token), tokens.behind token more) :=
    Tokenizer.next_eq_some_iff.mpr ⟨before.going, before.depth ▸ fits, more, before.rest, rfl⟩
  rw [outcome_eq, step_of_next read]
  simp only [Tokenizer.behind, before.depth]
  rfl

/-- A container opens: the reader is inside of it, or refuses it. -/
theorem outcome_open {marker : Token} {frame : Frame} {text more : Bytes} {tokens : Tokenizer} {stack : List Frame}
    (before : Before (marker.lexeme ++ text) more tokens stack) (value : awaitingKey stack = false)
    (isMarker : marker.level stack.length = stack.length + 1 ∧ marker.Fits stack.length ∧
      ∀ tokens', accept marker tokens.position tokens' stack = openFrame frame tokens.position tokens' stack)
    {inside : List Opening} {result : Except DecodeError (Dict × Nat)}
    (inner : Before text more (behindText tokens marker.lexeme (text ++ more) (stack.length + 1)) (frame :: stack) →
      outcome ⟨behindText tokens marker.lexeme (text ++ more) (stack.length + 1), frame :: stack⟩ =
        orTooDeep inside result) :
    outcome ⟨tokens, stack⟩ = orTooDeep (⟨tokens.position, stack.length + 1⟩ :: inside) result := by
  have fits := before.fits
  rw [outcome_token marker before.first isMarker.2.1, isMarker.1, isMarker.2.2]
  by_cases full : stack.length = maxDepth
  · rw [orTooDeep_cons_of_eq _ _ (by simpa using full), openFrame, if_neg (by simp [value]), if_pos (by omega)]
    rfl
  · rw [orTooDeep_cons_of_lt _ _ (by simp only; omega), openFrame, if_neg (by simp [value]), if_neg (by omega)]
    exact inner (before_behind tokens _ text more (List.cons_ne_nil frame stack) (by rw [List.length_cons]; omega))

mutual
/-- On the text of a value the reader goes on as if the value had been placed. -/
theorem outcome_spell : ∀ (value : Value) {more : Bytes} {tokens : Tokenizer} {stack : List Frame},
    value.Short → value.Distinct → awaitingKey stack = false → Before value.spell more tokens stack →
    outcome ⟨tokens, stack⟩ = orTooDeep (value.openings tokens.position stack.length)
      (conclude (place value.arranged (behindText tokens value.spell more stack.length) stack))
  | .int number, more, tokens, stack, _, _, value, before => by
    rw [outcome_token (.int number) before trivial]
    simp only [accept, value]
    rfl
  | .bytes content, more, tokens, stack, short, _, value, before => by
    rw [outcome_token (.bytes content) before short, accept_bytes value]
    rfl
  | .list items, more, tokens, stack, short, distinct, value, before => by
    refine @outcome_open .listStart (.list []) (Value.spellItems items ++ [101]) more tokens stack before value
      ⟨rfl, trivial, fun _ => rfl⟩ _ _ ?_
    intro inner
    rw [outcome_items items short distinct inner, behindText_append]
    rfl
  | .dict entries, more, tokens, stack, short, distinct, value, before => by
    refine @outcome_open .dictStart (.dict [] none) (Value.spellEntries entries ++ [101]) more tokens stack before value
      ⟨rfl, trivial, fun _ => rfl⟩ _ _ ?_
    intro inner
    have keys : ((Value.arrangedEntries entries).map Prod.fst).Nodup := by
      rw [Value.keys_arrangedEntries]
      exact distinct.1
    rw [outcome_entries entries short distinct.2 distinct.1 (by simp) inner, behindText_append, Value.arranged,
      ← Dictionary.ofEntries_eq_mergeSort keys]
    rfl
theorem outcome_items : ∀ (items : List Value) {newest : List Value} {more : Bytes} {tokens : Tokenizer}
    {outer : List Frame}, Value.ShortItems items → Value.DistinctItems items →
    Before (Value.spellItems items ++ [101]) more tokens (.list newest :: outer) →
    outcome ⟨tokens, .list newest :: outer⟩ =
      orTooDeep (Value.openingsItems tokens.position (outer.length + 1) items)
        (conclude (place (.list (newest.reverse ++ Value.arrangedItems items))
          (behindText tokens (Value.spellItems items ++ [101]) more outer.length) outer))
  | [], newest, more, tokens, outer, _, _, before => by
    rw [outcome_token .close before (by simp [Token.Fits]), Value.arrangedItems, List.append_nil]
    rfl
  | item :: items, newest, more, tokens, outer, short, distinct, before => by
    rw [Value.spellItems, List.append_assoc] at before
    have others := before_behind tokens item.spell (Value.spellItems items ++ [101]) more
      (List.cons_ne_nil (.list (item.arranged :: newest)) outer) before.fits
    rw [outcome_spell item short.1 distinct.1 rfl before.first, Value.openingsItems, orTooDeep_append]
    have text : item.spell ++ (Value.spellItems items ++ [101]) = Value.spellItems (item :: items) ++ [101] := by
      rw [Value.spellItems, List.append_assoc]
    have list : (item.arranged :: newest).reverse ++ Value.arrangedItems items =
        newest.reverse ++ Value.arrangedItems (item :: items) := by
      rw [Value.arrangedItems, List.reverse_cons, List.append_assoc, List.singleton_append]
    refine congrArg _ ((outcome_items items short.2 distinct.2 others).trans ?_)
    rw [behindText_append, text, list]
    rfl
theorem outcome_entries : ∀ (entries : List (Bytes × Value)) {dict : Dict} {more : Bytes} {tokens : Tokenizer}
    {outer : List Frame}, Value.ShortEntries entries → Value.DistinctEntries entries →
    (entries.map Prod.fst).Nodup → (∀ key ∈ entries.map Prod.fst, key ∉ dict.map Prod.fst) →
    Before (Value.spellEntries entries ++ [101]) more tokens (.dict dict none :: outer) →
    outcome ⟨tokens, .dict dict none :: outer⟩ =
      orTooDeep (Value.openingsEntries tokens.position (outer.length + 1) entries)
        (conclude (place (.dict ((Value.arrangedEntries entries).foldl (fun d e => Dictionary.insert e.1 e.2 d) dict))
          (behindText tokens (Value.spellEntries entries ++ [101]) more outer.length) outer))
  | [], dict, more, tokens, outer, _, _, _, _, before => by
    rw [outcome_token .close before (by simp [Token.Fits])]
    rfl
  | (key, value) :: entries, dict, more, tokens, outer, short, distinct, keys, new, before => by
    obtain ⟨newKey, newOthers⟩ := List.forall_mem_cons.mp new
    obtain ⟨otherKey, keys⟩ := List.nodup_cons.mp keys
    rw [Value.spellEntries, List.append_assoc, List.append_assoc] at before
    -- The key goes into the frame, the value into the dictionary, and the other entries follow.
    have atValue := before_behind tokens (spellBytes key) (value.spell ++ (Value.spellEntries entries ++ [101])) more
      (List.cons_ne_nil (.dict dict (some key)) outer) before.fits
    have others := before_behind
      (behindText tokens (spellBytes key) (value.spell ++ (Value.spellEntries entries ++ [101]) ++ more) (outer.length + 1))
      value.spell (Value.spellEntries entries ++ [101]) more
      (List.cons_ne_nil (.dict (Dictionary.insert key value.arranged dict) none) outer) before.fits
    have text : spellBytes key ++ value.spell ++ (Value.spellEntries entries ++ [101]) =
        Value.spellEntries ((key, value) :: entries) ++ [101] := by
      rw [Value.spellEntries, List.append_assoc, List.append_assoc, List.append_assoc]
    have isNew : Dictionary.contains dict key = false := by
      rw [← Bool.not_eq_true, Dictionary.contains_iff]
      exact newKey
    rw [outcome_token (.bytes key) before.first short.1]
    simp only [accept, isNew, Bool.false_eq_true, if_false]
    refine (outcome_spell value short.2.1 distinct.1 rfl atValue.first).trans ?_
    rw [Value.openingsEntries, orTooDeep_append]
    refine congrArg _ ((outcome_entries entries short.2.2 distinct.2 keys ?_ others).trans ?_)
    · intro other member inDict
      rcases Dictionary.mem_keys_insert.mp inDict with rfl | inDict
      · exact otherKey member
      · exact newOthers other member inDict
    · rw [behindText_append, behindText_append, text, Value.arrangedEntries, List.foldl_cons]
      simp only [behindText, List.length_append, List.length_cons, Nat.add_assoc]
end

end Decoder

open Decoder

/-- The text of a dictionary is read back, whatever stands behind it, unless the dictionary nests too deep. -/
theorem decodeStart_spell {entries : List (Bytes × Value)} (short : (Value.dict entries).Short)
    (distinct : (Value.dict entries).Distinct) (more : Bytes) :
    decodeStart ((Value.dict entries).spell ++ more) = orTooDeep ((Value.dict entries).openings 0 0)
      (.ok ((Value.arrangedEntries entries).mergeSort fun a b => a.1 ≤ b.1, (Value.dict entries).spell.length)) := by
  have before : Before (Value.dict entries).spell more (.ofInput ((Value.dict entries).spell ++ more)) [] :=
    ⟨rfl, rfl, rfl, Nat.zero_le _⟩
  have read := outcome_spell (.dict entries) short distinct rfl before
  simp only [decodeStart, Value.spell, List.cons_append, if_true]
  refine read.trans (congrArg _ ?_)
  simp [Value.arranged, Value.spell, place, conclude, behindText, Tokenizer.ofInput]

end PeerSubstrate.Bencode
