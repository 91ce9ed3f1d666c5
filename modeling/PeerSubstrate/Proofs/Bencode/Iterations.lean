import PeerSubstrate.Proofs.Bencode.Faults

/-!
# Iterations of the reader

The tokenizer counts the open containers and the reader keeps them on its stack. At the start of every iteration
the two agree, a dictionary is at the bottom, and no container but the innermost one waits for a key
(`Starts.inside`, `Starts.root`). So the answers that the reader has in reserve are never given: it
makes no difference what they are (`Inside.stepOr_eq`). Every iteration takes a byte, and the last one says what
the reading comes to (`exists_last`).
-/

namespace PeerSubstrate.Bencode
namespace Decoder

/-- The reader of `input` at the start of an iteration, which are counted from zero. -/
inductive Starts (input : Bytes) : Nat → Decoder → Prop
  | first : input.head? = some 100 → Starts input 0 { tokens := .ofInput input }
  | next {n : Nat} {d d' : Decoder} : Starts input n d → d.step = .ok (.more d') → Starts input (n + 1) d'

section
variable (fallback : Except DecodeError Progress)

/-- `place` with another answer to a complete value that is no dictionary and stands outside of all containers, or
that meets a dictionary without a key. -/
def placeOr (value : Value) (tokens : Tokenizer) : List Frame → Except DecodeError Progress
  | [] => match value with
    | .dict entries => .ok (.complete entries tokens.position)
    | _ => fallback
  | .list newest :: outer => .ok (.more ⟨tokens, .list (value :: newest) :: outer⟩)
  | .dict entries (some key) :: outer => .ok (.more ⟨tokens, .dict (entries.insert key value) none :: outer⟩)
  | .dict _ none :: _ => fallback

/-- `closeFrame` with another answer where no container is open. -/
def closeOr (offset : Nat) (tokens : Tokenizer) : List Frame → Except DecodeError Progress
  | [] => fallback
  | .dict _ (some _) :: _ => .error ⟨offset, .missingValue⟩
  | .dict entries none :: outer => placeOr fallback (.dict entries) tokens outer
  | .list newest :: outer => placeOr fallback (.list newest.reverse) tokens outer

/-- `accept` with these answers. -/
def acceptOr (token : Token) (offset : Nat) (tokens : Tokenizer) (stack : List Frame) : Except DecodeError Progress :=
  match token with
  | .dictStart => openFrame (.dict [] none) offset tokens stack
  | .listStart => openFrame (.list []) offset tokens stack
  | .close => closeOr fallback offset tokens stack
  | .int number =>
    if awaitingKey stack then .error ⟨offset, .nonStringKey⟩ else placeOr fallback (.int number) tokens stack
  | .bytes text =>
    match stack with
    | .dict entries none :: outer =>
      if entries.contains text then .error ⟨offset, .duplicateKey text⟩
      else .ok (.more ⟨tokens, .dict entries (some text) :: outer⟩)
    | _ => placeOr fallback (.bytes text) tokens stack

/-- `step` with these answers, and with another one where there is no token before the root is closed. -/
def stepOr (d : Decoder) : Except DecodeError Progress :=
  match d.tokens.next with
  | (.error e, _) => .error e
  | (.ok none, _) => fallback
  | (.ok (some token), tokens) => acceptOr fallback token d.tokens.position tokens d.stack

variable {read : Bytes} {tokens : Tokenizer} {stack : List Frame}

private theorem placeOr_eq {value : Value} (settled : awaitingKey stack = false)
    (root : stack = [] → ∃ entries, value = .dict entries) :
    placeOr fallback value tokens stack = place value tokens stack := by
  match stack with
  | [] =>
    obtain ⟨entries, rfl⟩ := root rfl
    rfl
  | .list _ :: _ | .dict _ (some _) :: _ => rfl
  | .dict _ none :: _ => cases settled

private theorem closeOr_eq {offset : Nat} (opened : Opened read stack) (inside : stack ≠ []) (root : read.head? = some 100) :
    closeOr fallback offset tokens stack = closeFrame offset tokens stack := by
  cases opened with
  | nil => exact absurd rfl inside
  | @cons before text frame outer opened settled filled =>
    match frame with
    | .dict _ (some _) => rfl
    | .dict entries none => exact placeOr_eq fallback settled fun _ => ⟨entries, rfl⟩
    | .list newest =>
      change placeOr fallback (.list newest.reverse) tokens outer = place (.list newest.reverse) tokens outer
      refine placeOr_eq fallback settled fun alone => ?_
      subst alone
      exact absurd root (opened.cons settled filled).not_list

private theorem acceptOr_eq {token : Token} {offset : Nat} (opened : Opened read stack) (fits : token.Fits stack.length)
    (root : stack = [] → token = .dictStart) (isDict : stack ≠ [] → read.head? = some 100) :
    acceptOr fallback token offset tokens stack = accept token offset tokens stack := by
  have inside : token ≠ .dictStart → stack ≠ [] := fun other none => other (root none)
  cases token with
  | dictStart | listStart => rfl
  | close => exact closeOr_eq fallback opened (inside (by simp)) (isDict (inside (by simp)))
  | int number =>
    simp only [acceptOr, accept]
    split_ifs with atKey
    · rfl
    · exact placeOr_eq fallback (by simpa using atKey) fun none => absurd none (inside (by simp))
  | bytes content =>
    cases stack with
    | nil => exact absurd rfl (inside (by simp))
    | cons frame outer =>
      cases frame with
      | list => rfl
      | dict entries key => cases key <;> rfl

end

section
variable {input read : Bytes} {n : Nat} {d : Decoder}

/-- The text of a stack begins with the marker of the container at its bottom. -/
theorem Opened.bottom {stack : List Frame} (opened : Opened read stack) (isDict : read.head? = some 100) :
    ∃ inner entries key, stack = inner ++ [.dict entries key] := by
  induction opened with
  | nil => cases isDict
  | @cons before text frame outer opened settled filled ih =>
    cases opened with
    | nil =>
      cases filled with
      | list => cases isDict
      | dict | key => exact ⟨[], _, _, rfl⟩
    | @cons earlier inside _ _ _ _ other =>
      have nonempty : earlier ++ inside ≠ [] := by
        cases other <;> simp
      rw [List.head?_append_of_ne_nil _ nonempty] at isDict
      obtain ⟨inner, entries, key, same⟩ := ih isDict
      exact ⟨frame :: inner, entries, key, by rw [same, List.cons_append]⟩

private theorem Opened.eq_nil_iff {stack : List Frame} (opened : Opened read stack) : read = [] ↔ stack = [] := by
  cases opened with
  | nil => exact ⟨fun _ => rfl, fun _ => rfl⟩
  | cons _ _ filled => cases filled <;> simp

/-- What has been read of a message begins with its marker, once a container is open. -/
theorem Inside.head_read (inside : Inside input read d) (nonempty : d.stack ≠ []) : read.head? = some 100 := by
  rw [← inside.root, inside.input_eq, List.head?_append_of_ne_nil _ (mt inside.opened.eq_nil_iff.mp nonempty)]

/-- Outside of all containers the reader is in front of the marker of the message. -/
theorem Inside.eq_dictStart (inside : Inside input read d) (outside : d.stack = []) {token : Token} {after : Tokenizer}
    (next : d.tokens.next = (.ok (some token), after)) : token = .dictStart := by
  obtain ⟨-, fits, more, isRest, -⟩ := Tokenizer.next_eq_some_iff.mp next
  have root : token.lexeme.head? = some 100 := by
    rw [← inside.root, inside.input_eq, inside.opened.eq_nil_iff.mpr outside, List.nil_append, isRest,
      List.head?_append_of_ne_nil _ token.lexeme_ne_nil]
  cases token with
  | dictStart => rfl
  | listStart | close | int => simp [Token.lexeme] at root
  | bytes content =>
    obtain ⟨byte, text, isLexeme, isOne⟩ := Token.spellBytes_eq_cons fits
    rw [Token.lexeme, isLexeme, List.head?_cons, Option.some_inj] at root
    rw [root] at isOne
    exact absurd isOne (by decide)

/-- None of the answers in reserve is given. -/
theorem Inside.stepOr_eq (inside : Inside input read d) (fallback : Except DecodeError Progress) :
    d.stepOr fallback = d.step := by
  rcases next : d.tokens.next with ⟨e | (_ | token), tokens⟩
  · simp only [stepOr, Decoder.step, next]
  · exact absurd (congrArg Prod.fst next) (Tokenizer.next_ne_none inside.going)
  · obtain ⟨-, fits, -⟩ := Tokenizer.next_eq_some_iff.mp next
    simp only [stepOr, Decoder.step, next]
    exact acceptOr_eq fallback inside.opened (inside.depth ▸ fits) (fun outside => inside.eq_dictStart outside next)
      inside.head_read

private theorem Starts.inside (starts : Starts input n d) : ∃ read, Inside input read d := by
  induction starts with
  | first isDict => exact ⟨[], ⟨rfl, .nil, rfl, rfl⟩, rfl, Nat.zero_le _, isDict⟩
  | next _ stepped ih =>
    obtain ⟨read, inside⟩ := ih
    obtain ⟨text, inside', -⟩ := inside.step stepped
    exact ⟨read ++ text, inside'⟩

/-- Only in the first iteration no container is open. -/
theorem Starts.stack_eq_nil_iff (starts : Starts input n d) : d.stack = [] ↔ n = 0 := by
  cases starts with
  | first => exact ⟨fun _ => rfl, fun _ => rfl⟩
  | @next n before _ _ stepped =>
    obtain ⟨token, -, accepted⟩ := next_of_step stepped
    obtain ⟨-, nonempty, -⟩ := accept_moved accepted d.tokens
    exact ⟨fun none => absurd none nonempty, fun zero => absurd zero (Nat.succ_ne_zero n)⟩

/-- Every iteration but the last takes a byte. -/
theorem Starts.rest_length (starts : Starts input n d) : n + d.tokens.rest.length ≤ input.length := by
  induction starts with
  | first => exact Nat.le_of_eq (Nat.zero_add _)
  | next _ stepped ih =>
    have shorter := rest_length_lt stepped
    omega

/-- From every iteration the reading comes to a last one, which says what it comes to. -/
theorem Starts.exists_last {n : Nat} {d : Decoder} (starts : Starts input n d) : ∃ last d',
    Starts input last d' ∧ (∀ d'', d'.step ≠ .ok (.more d'')) ∧ d.outcome = conclude d'.step := by
  cases stepped : d.step with
  | error e => exact ⟨n, d, starts, by simp [stepped], outcome_eq d⟩
  | ok progress =>
    cases progress with
    | complete dict stop => exact ⟨n, d, starts, by simp [stepped], outcome_eq d⟩
    | more d' =>
      have shorter := rest_length_lt stepped
      obtain ⟨last, final, reached, ends, same⟩ := (starts.next stepped).exists_last
      exact ⟨last, final, reached, ends, by rw [outcome_eq, stepped]; exact same⟩
termination_by d.tokens.rest.length

end

/-- The iterations of the reader. Whenever one starts, the tokenizer is as deep as the stack, which is empty in the
first iteration only, has a dictionary at its bottom in all others and is never too deep; and what the reader
would answer to what cannot happen makes no difference. The reading of a message has at most one iteration more
than there are bytes, and its result is that of the last one. -/
theorem iterations_sound (input : Bytes) :
    (∀ n d, Starts input n d → d.tokens.depth = d.stack.length ∧ (d.stack = [] ↔ n = 0) ∧
      (n ≠ 0 → ∃ inner entries key, d.stack = inner ++ [.dict entries key]) ∧ d.stack.length ≤ maxDepth ∧
      n ≤ input.length ∧ ∀ fallback, d.stepOr fallback = d.step) ∧
    (input.head? = some 100 → ∃ last d, Starts input last d ∧ (∀ d', d.step ≠ .ok (.more d')) ∧
      last + 1 ≤ input.length + 1 ∧ decodeStart input = conclude d.step) := by
  refine ⟨fun n d starts => ?_, fun isDict => ?_⟩
  · obtain ⟨read, inside⟩ := starts.inside
    have bound := starts.rest_length
    refine ⟨inside.depth, starts.stack_eq_nil_iff, fun later => ?_, inside.shallow, by omega, inside.stepOr_eq⟩
    exact inside.opened.bottom (inside.head_read (mt starts.stack_eq_nil_iff.mp later))
  · obtain ⟨last, d, starts, ends, same⟩ := (Starts.first isDict).exists_last
    have bound := starts.rest_length
    refine ⟨last, d, starts, ends, by omega, ?_⟩
    rw [← same]
    cases input with
    | nil => cases isDict
    | cons byte rest =>
      rw [decodeStart, if_pos (by simpa using isDict)]
      rfl

/-- `d1:al`: behind its third token the reader is in a list under the key `a`, and finds the end of its input, whatever
answer it has in reserve. -/
theorem list_in_dictionary : ∃ d, Starts [100, 49, 58, 97, 108] 3 d ∧ d.stack = [.list [], .dict [] (some [97])] ∧
    d.tokens.depth = d.stack.length ∧ d.stepOr (.ok (.complete [] 0)) = .error ⟨5, .unexpectedEnd⟩ := by
  have starts : Starts [100, 49, 58, 97, 108] 3 ⟨⟨[], 5, 2, false⟩, [.list [], .dict [] (some [97])]⟩ :=
    .next (.next (.next (.first rfl) rfl) rfl) rfl
  obtain ⟨depth, -, -, -, -, answers⟩ := (iterations_sound _).1 3 _ starts
  exact ⟨_, starts, rfl, depth, answers _⟩

end Decoder
end PeerSubstrate.Bencode
