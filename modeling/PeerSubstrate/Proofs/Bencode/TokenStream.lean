import PeerSubstrate.Proofs.Bencode.Lexeme

/-!
# Streams of tokens

A reader is called again and again. As long as it answers with tokens, nothing of the input is lost: the
tokens written back are the text that was read, and the number of open containers is that of the opening
tokens without the closing ones (`tokens_written_back`).
-/

namespace PeerSubstrate.Bencode

/-- A container opens. -/
def Token.isStart : Token → Bool
  | .dictStart | .listStart => true
  | .close | .int _ | .bytes _ => false

namespace Tokenizer

/-- The answers to `n` calls in a row, and the reader behind them. -/
def calls : Nat → Tokenizer → List (Except DecodeError (Option Token)) × Tokenizer
  | 0, t => ([], t)
  | n + 1, t => (t.next.1 :: (calls n t.next.2).1, (calls n t.next.2).2)

theorem next_of_finished {t : Tokenizer} (finished : t.finished = true) : t.next = (.ok none, t) := by
  rw [next, if_pos finished]

/-- Behind the first value there is nothing more, however often the reader is called. -/
theorem calls_of_finished {t : Tokenizer} (finished : t.finished = true) (n : Nat) :
    t.calls n = (List.replicate n (.ok none), t) := by
  induction n with
  | zero => rfl
  | succ n ih => rw [calls, next_of_finished finished, ih, List.replicate_succ]

/-- The first of several answers is a token, and the others follow it. -/
theorem calls_cons {t last : Tokenizer} {n : Nat} {token : Token} {tokens : List Token}
    (read : t.calls (n + 1) = ((token :: tokens).map fun token => .ok (some token), last)) :
    ∃ after, t.next = (.ok (some token), after) ∧ after.calls n = (tokens.map fun token => .ok (some token), last) := by
  rw [calls, List.map_cons] at read
  obtain ⟨answers, isLast⟩ := Prod.mk.inj read
  obtain ⟨first, others⟩ := List.cons.inj answers
  exact ⟨t.next.2, Prod.ext first rfl, Prod.ext others isLast⟩

/-- What was read stands in front of what is left, and is as long as the way to there. -/
theorem rest_of_calls {t last : Tokenizer} {n : Nat} {tokens : List Token}
    (read : t.calls n = (tokens.map fun token => .ok (some token), last)) :
    t.rest = tokens.flatMap Token.lexeme ++ last.rest ∧
      last.position = t.position + (tokens.flatMap Token.lexeme).length := by
  induction n generalizing t tokens with
  | zero =>
    cases tokens with
    | nil =>
      cases read
      exact ⟨rfl, rfl⟩
    | cons token tokens => cases read
  | succ n ih =>
    cases tokens with
    | nil => cases read
    | cons token tokens =>
      obtain ⟨after, first, others⟩ := calls_cons read
      obtain ⟨-, -, more, isRest, rfl⟩ := next_eq_some_iff.mp first
      obtain ⟨behind, position⟩ := ih others
      simp only [Tokenizer.behind] at behind position
      refine ⟨?_, ?_⟩
      · rw [isRest, behind, List.flatMap_cons, List.append_assoc]
      · rw [position, List.flatMap_cons, List.length_append]
        omega

/-- One token more is open behind a start, and one less behind a closing marker. -/
theorem level_of_fits {token : Token} {depth : Nat} (fits : token.Fits depth) :
    token.level depth + [token].count .close = depth + [token].countP Token.isStart := by
  cases token with
  | close =>
    have inside : 0 < depth := fits
    simp only [Token.level, Token.isStart, List.count_singleton, List.countP_singleton, beq_self_eq_true, if_true]
    simp only [Bool.false_eq_true, if_false]
    omega
  | dictStart | listStart | int | bytes => simp [Token.level, Token.isStart]

/-- The count of open containers, along the tokens and behind them. -/
theorem depth_of_calls {t last : Tokenizer} {n : Nat} {tokens : List Token}
    (read : t.calls n = (tokens.map fun token => .ok (some token), last)) :
    last.depth + tokens.count .close = t.depth + tokens.countP Token.isStart ∧
      ∀ early, early <+: tokens → early.count .close ≤ t.depth + early.countP Token.isStart := by
  induction n generalizing t tokens with
  | zero =>
    cases tokens with
    | nil =>
      cases read
      refine ⟨rfl, ?_⟩
      rintro early isPrefix
      rw [List.prefix_nil.mp isPrefix]
      exact Nat.zero_le _
    | cons token tokens => cases read
  | succ n ih =>
    cases tokens with
    | nil => cases read
    | cons token tokens =>
      obtain ⟨after, first, others⟩ := calls_cons read
      obtain ⟨-, fits, more, -, rfl⟩ := next_eq_some_iff.mp first
      obtain ⟨depth, never⟩ := ih others
      have level := level_of_fits fits
      simp only [Tokenizer.behind] at depth never
      refine ⟨?_, ?_⟩
      · rw [← List.singleton_append, List.count_append, List.countP_append]
        omega
      · rintro early isPrefix
        rcases List.prefix_cons_iff.mp isPrefix with rfl | ⟨later, rfl, inTokens⟩
        · exact Nat.zero_le _
        · have inside := never later inTokens
          rw [← List.singleton_append, List.count_append, List.countP_append]
          omega

/-- Behind a token the value is complete if nothing is open. -/
theorem finished_of_calls {t last : Tokenizer} {n : Nat} {tokens : List Token}
    (read : t.calls (n + 1) = (tokens.map fun token => .ok (some token), last)) :
    last.finished = (last.depth == 0) := by
  induction n generalizing t tokens with
  | zero =>
    cases tokens with
    | nil => cases read
    | cons token tokens =>
      obtain ⟨after, first, others⟩ := calls_cons read
      obtain ⟨-, -, more, -, rfl⟩ := next_eq_some_iff.mp first
      obtain ⟨-, rfl⟩ := Prod.mk.inj others
      rfl
  | succ n ih =>
    cases tokens with
    | nil => cases read
    | cons token tokens =>
      obtain ⟨after, -, others⟩ := calls_cons read
      exact ih others

end Tokenizer

open Tokenizer

/-- A reader that has answered every call with a token has read the text of these tokens and nothing else. As many
containers are open as were opened and not closed, which at no place is less than none; the value is complete once
there is a token and nothing is open, and from then on the reader stays where it is and has no more tokens. -/
theorem tokens_written_back {input : Bytes} {n : Nat} {tokens : List Token} {t : Tokenizer}
    (read : (ofInput input).calls n = (tokens.map fun token => .ok (some token), t)) :
    tokens.flatMap Token.lexeme = input.take t.position ∧ t.position ≤ input.length ∧
    (t.depth : Int) = tokens.countP Token.isStart - tokens.count .close ∧
    (∀ early, early <+: tokens → early.count .close ≤ early.countP Token.isStart) ∧
    (t.finished = true ↔ 1 ≤ n ∧ t.depth = 0) ∧
    (t.finished = true → ∀ more, t.calls more = (List.replicate more (.ok none), t)) := by
  obtain ⟨isRest, position⟩ := rest_of_calls read
  obtain ⟨depth, never⟩ := depth_of_calls read
  simp only [ofInput, Nat.zero_add] at isRest position depth never
  refine ⟨?_, ?_, by omega, never, ?_, calls_of_finished⟩
  · rw [isRest, position, List.take_left]
  · rw [isRest, position, List.length_append]
    exact Nat.le_add_right _ _
  · cases n with
    | zero =>
      obtain ⟨-, rfl⟩ := Prod.mk.inj read
      simp [ofInput]
    | succ n =>
      rw [finished_of_calls read, beq_iff_eq]
      exact ⟨fun none => ⟨Nat.le_add_left 1 n, none⟩, fun ended => ended.2⟩

/-- A list with a negative number and a byte string that holds a colon and a closing marker, and bytes behind it. -/
theorem list_written_back : ∃ t, (ofInput [108, 105, 45, 49, 55, 101, 50, 58, 58, 101, 101, 120]).calls 4 =
      ([.listStart, .int (-17), .bytes [58, 101], .close].map fun token => .ok (some token), t) ∧
    [Token.listStart, .int (-17), .bytes [58, 101], .close].flatMap Token.lexeme =
      [108, 105, 45, 49, 55, 101, 50, 58, 58, 101, 101] ∧
    t.position = 11 ∧ t.finished = true ∧ t.calls 2 = ([.ok none, .ok none], t) := by
  have read : (ofInput [108, 105, 45, 49, 55, 101, 50, 58, 58, 101, 101, 120]).calls 4 =
      ([.listStart, .int (-17), .bytes [58, 101], .close].map fun token => .ok (some token), ⟨[120], 11, 0, true⟩) := by
    decide +kernel
  obtain ⟨text, -, -, -, -, gone⟩ := tokens_written_back read
  exact ⟨_, read, text, rfl, rfl, gone rfl 2⟩

end PeerSubstrate.Bencode
