import PeerSubstrate.Proofs.Bencode.Faults
import PeerSubstrate.Proofs.Bencode.TokenStream

/-!
# Reading on after a fault

A failed call may leave the reader in the middle of a number or behind the colon of a length, and the next call goes
on from there. Wherever it is, the reader only moves forward in its input and never beyond the end
(`Reached.within`), and as a sequence its tokens end after at most one error (`reading_stays_inside`).
-/

namespace PeerSubstrate.Bencode
open PeerSubstrate.Text.Decimal

namespace Cursor

/-- `after` is where `c` comes by reading some of what is left. -/
def Ahead (c after : Cursor) : Prop := ∃ text, c.rest = text ++ after.rest ∧ after.position = c.position + text.length

/-- The cursor stands at its position of the input. -/
def Within (input : Bytes) (c : Cursor) : Prop := c.position ≤ input.length ∧ c.rest = input.drop c.position

theorem Ahead.refl (c : Cursor) : c.Ahead c := ⟨[], rfl, rfl⟩

theorem Ahead.trans {one two three : Cursor} (first : one.Ahead two) (second : two.Ahead three) : one.Ahead three := by
  obtain ⟨text, isRest, position⟩ := first
  obtain ⟨more, isMore, further⟩ := second
  refine ⟨text ++ more, by rw [isRest, isMore, List.append_assoc], ?_⟩
  rw [further, position, List.length_append, Nat.add_assoc]

/-- Reading one byte. -/
theorem ahead_byte (byte : UInt8) (rest : Bytes) (position : Nat) :
    (⟨byte :: rest, position⟩ : Cursor).Ahead ⟨rest, position + 1⟩ := ⟨[byte], rfl, rfl⟩

private theorem Ahead.le {c after : Cursor} (ahead : c.Ahead after) : c.position ≤ after.position := by
  obtain ⟨text, -, position⟩ := ahead
  omega

/-- Further on in the input is still in the input. -/
theorem Ahead.within {c after : Cursor} {input : Bytes} (ahead : c.Ahead after) (within : c.Within input) :
    after.Within input := by
  obtain ⟨text, isRest, position⟩ := ahead
  obtain ⟨inside, isDrop⟩ := within
  have length := congrArg List.length isRest
  rw [isDrop, List.length_drop, List.length_append] at length
  refine ⟨by omega, ?_⟩
  rw [position, ← List.drop_drop, ← isDrop, isRest, List.drop_left]

private theorem Within.length_rest {c : Cursor} {input : Bytes} (within : c.Within input) :
    c.rest.length = input.length - c.position := by
  rw [within.2, List.length_drop]

/-- Digits are read up to the fault or to the end of the number, which is still to come. -/
theorem digits_ahead (stop : UInt8) (start : Nat) (rest : Bytes) (first : Option UInt8) (total : Int) (position : Nat) :
    (⟨rest, position⟩ : Cursor).Ahead (digits stop start first total rest position).2 ∧
      ∀ {result}, (digits stop start first total rest position).1 = .ok result →
        ∃ more, (digits stop start first total rest position).2.rest = stop :: more := by
  induction rest generalizing first total position with
  | nil => exact ⟨.refl _, fun read => by cases read⟩
  | cons byte rest ih =>
    rw [digits]
    simp only
    split_ifs with atStop noDigit zero tooLarge
    · exact ⟨.refl _, fun _ => ⟨rest, by rw [atStop]⟩⟩
    · exact ⟨.refl _, fun read => by cases read⟩
    · exact ⟨.refl _, fun read => by cases read⟩
    · exact ⟨.refl _, fun read => by cases read⟩
    · obtain ⟨ahead, stops⟩ := ih (first.or (some byte)) (total * 10 - digitValue byte) (position + 1)
      exact ⟨(ahead_byte byte rest position).trans ahead, stops⟩

private theorem unsignedNumber_ahead (stop : UInt8) (negative : Bool) (start : Nat) (c : Cursor) :
    c.Ahead (unsignedNumber stop negative start c).2 := by
  obtain ⟨ahead, stops⟩ := digits_ahead stop start c.rest none 0 c.position
  rw [unsignedNumber]
  split
  · next read =>
    rw [read] at ahead
    exact ahead
  · next read =>
    rw [read] at ahead
    exact ahead
  · next read =>
    rw [read] at ahead stops
    obtain ⟨more, isRest⟩ := stops rfl
    refine ahead.trans ⟨[stop], ?_, rfl⟩
    rw [isRest]
    rfl

private theorem number_ahead (stop : UInt8) (isSigned : Bool) (c : Cursor) : c.Ahead (c.number stop isSigned).2 := by
  obtain ⟨rest, position⟩ := c
  rw [number]
  split_ifs
  · cases rest with
    | nil => exact .refl _
    | cons byte rest =>
      simp only
      split_ifs
      · exact (ahead_byte byte rest position).trans (unsignedNumber_ahead ..)
      · exact unsignedNumber_ahead ..
  · exact unsignedNumber_ahead ..

/-- A byte string is a slice of the text behind its length. -/
theorem byteString_ahead (c : Cursor) : c.Ahead c.byteString.2 := by
  have ahead := number_ahead 58 false c
  rw [byteString]
  split
  · next read =>
    rw [read] at ahead
    exact ahead
  · next declared behind read =>
    rw [read] at ahead
    simp only
    split_ifs with overrun
    · exact ahead
    · refine ahead.trans ⟨behind.rest.take declared.toInt.toNat, (List.take_append_drop _ _).symm, ?_⟩
      rw [List.length_take]
      simp only
      omega

/-- A length is never below zero. -/
theorem length_nonneg {c behind : Cursor} {declared : Int64} (read : c.number 58 false = (.ok declared, behind)) :
    0 ≤ declared.toInt := by
  rw [number, if_neg (by decide)] at read
  obtain ⟨text, n, more, -, -, same, -, -⟩ := (unsignedNumber_eq_ok_iff (by decide)).mp read
  simp only [Bool.false_eq_true, if_false] at same
  omega

end Cursor

/-! ## Calls in any number -/

namespace Tokenizer

private theorem next_ahead (t : Tokenizer) : t.cursor.Ahead t.next.2.cursor := by
  obtain ⟨rest, position, depth, finished⟩ := t
  rw [next]
  cases finished with
  | true => exact .refl _
  | false =>
    cases rest with
    | nil => exact .refl _
    | cons byte rest =>
      have first := Cursor.ahead_byte byte rest position
      simp only [Bool.false_eq_true, if_false]
      split_ifs
      · exact first
      · exact first
      · exact .refl _
      · exact first
      · have ahead := first.trans (Cursor.number_ahead 101 true ⟨rest, position + 1⟩)
        split
        · next read =>
          rw [read] at ahead
          exact ahead
        · next read =>
          rw [read] at ahead
          exact ahead
      · have ahead := Cursor.byteString_ahead ⟨byte :: rest, position⟩
        split
        · next read =>
          rw [cursor] at read
          rw [read] at ahead
          exact ahead
        · next read =>
          rw [cursor] at read
          rw [read] at ahead
          exact ahead
      · exact .refl _

/-- A call that fails only moves the reader. -/
theorem next_of_error {t : Tokenizer} {e : DecodeError} (failed : t.next.1 = .error e) :
    t.next.2.depth = t.depth ∧ t.next.2.finished = t.finished := by
  obtain ⟨rest, position, depth, finished⟩ := t
  rw [next] at failed ⊢
  cases finished with
  | true => cases failed
  | false =>
    cases rest with
    | nil => exact ⟨rfl, rfl⟩
    | cons byte rest =>
      simp only [Bool.false_eq_true, if_false, accepted] at failed ⊢
      split_ifs at failed ⊢
      · exact ⟨rfl, rfl⟩
      · split at failed
        · cases failed
        · exact ⟨rfl, rfl⟩
      · split at failed
        · cases failed
        · exact ⟨rfl, rfl⟩
      · exact ⟨rfl, rfl⟩

/-- A token takes at least one byte. -/
theorem length_rest_of_token {t after : Tokenizer} {token : Token} (read : t.next = (.ok (some token), after)) :
    after.rest.length < t.rest.length ∧ t.position < after.position := by
  obtain ⟨-, -, more, isRest, rfl⟩ := next_eq_some_iff.mp read
  have positive := List.length_pos_iff.mpr token.lexeme_ne_nil
  rw [isRest, List.length_append]
  simp only [behind]
  omega

private theorem calls_ahead (n : Nat) (t : Tokenizer) : t.cursor.Ahead (t.calls n).2.cursor := by
  induction n generalizing t with
  | zero => exact .refl _
  | succ n ih => exact (next_ahead t).trans (ih t.next.2)

/-- What `n` calls yield to whoever takes the tokens as a sequence, and the reader behind them. -/
def items : Nat → Tokenizer → List (Option (Except DecodeError Token)) × Tokenizer
  | 0, t => ([], t)
  | n + 1, t => (t.nextItem.1 :: (items n t.nextItem.2).1, (items n t.nextItem.2).2)

private theorem nextItem_ahead (t : Tokenizer) : t.cursor.Ahead t.nextItem.2.cursor := by
  have ahead := next_ahead t
  rw [nextItem]
  split
  · next read =>
    rw [read] at ahead
    exact ahead
  · next read =>
    rw [read] at ahead
    exact ahead
  · next read =>
    rw [read] at ahead
    exact ahead

private theorem items_of_finished {t : Tokenizer} (finished : t.finished = true) (n : Nat) :
    (t.items n).1 = List.replicate n none := by
  have ended : t.nextItem = (none, t) := by rw [nextItem, next_of_finished finished]
  induction n with
  | zero => rfl
  | succ n ih => rw [items, ended, ih, List.replicate_succ]

/-- Tokens, and behind them the error if there is one. -/
def sequence (tokens : List Token) (failure : Option DecodeError) : List (Except DecodeError Token) :=
  tokens.map .ok ++ failure.toList.map .error

/-- As a sequence the reader yields these tokens, then the error if there is one, and nothing from then on. -/
def Yields (t : Tokenizer) (tokens : List Token) (failure : Option DecodeError) : Prop :=
  ∀ n, (t.items n).1 = ((sequence tokens failure).map some ++ List.replicate n none).take n

private theorem Yields.ended {t : Tokenizer} (finished : t.finished = true) : t.Yields [] none := by
  intro n
  rw [items_of_finished finished]
  simp [sequence]

private theorem Yields.failed {t after : Tokenizer} {e : DecodeError} (read : t.next = (.error e, after)) :
    t.Yields [] (some e) := by
  have first : t.nextItem = (some (.error e), { after with finished := true }) := by rw [nextItem, read]
  intro n
  cases n with
  | zero => rfl
  | succ n =>
    rw [items, first, items_of_finished rfl]
    simp [sequence, List.take_replicate]

private theorem Yields.token {t after : Tokenizer} {token : Token} {tokens : List Token} {failure : Option DecodeError}
    (read : t.next = (.ok (some token), after)) (others : after.Yields tokens failure) :
    t.Yields (token :: tokens) failure := by
  have first : t.nextItem = (some (.ok token), after) := by rw [nextItem, read]
  intro n
  cases n with
  | zero => rfl
  | succ n =>
    rw [items, first, others n]
    -- Of the longer row of `none` the last one is beyond what is taken.
    have enough : n ≤ ((sequence tokens failure).map some ++ List.replicate n none).length := by
      rw [List.length_append, List.length_replicate]
      exact Nat.le_add_left n _
    simp only [sequence, List.map_cons, List.cons_append, List.take_succ_cons, List.replicate_succ', ← List.append_assoc]
    exact congrArg _ (List.take_append_of_le_length enough).symm

/-- The sequence of what a reader yields ends, since every token takes a byte of what is left. -/
theorem exists_yields (t : Tokenizer) : ∃ tokens failure, t.Yields tokens failure ∧
    tokens.length + failure.toList.length ≤ t.rest.length + 1 := by
  obtain ⟨left, isLeft⟩ : ∃ left, t.rest.length = left := ⟨_, rfl⟩
  induction left using Nat.strongRecOn generalizing t with
  | ind left ih =>
    by_cases finished : t.finished = true
    · exact ⟨[], none, .ended finished, Nat.zero_le _⟩
    · cases answer : t.next.1 with
      | error e => exact ⟨[], some e, .failed (Prod.ext answer rfl), Nat.le_add_left 1 _⟩
      | ok token? =>
        cases token? with
        | none => exact absurd answer (next_ne_none (Bool.eq_false_iff.mpr finished))
        | some token =>
          have read : t.next = (.ok (some token), t.next.2) := Prod.ext answer rfl
          have shorter := (length_rest_of_token read).1
          obtain ⟨tokens, failure, yields, bound⟩ := ih t.next.2.rest.length (by omega) t.next.2 rfl
          refine ⟨token :: tokens, failure, yields.token read, ?_⟩
          rw [List.length_cons]
          omega

/-- A reader of `input` after any calls, of either kind, whatever they have answered. -/
inductive Reached (input : Bytes) : Tokenizer → Prop
  | start : Reached input (ofInput input)
  | next {t : Tokenizer} : Reached input t → Reached input t.next.2
  | nextItem {t : Tokenizer} : Reached input t → Reached input t.nextItem.2

private theorem Reached.within {input : Bytes} {t : Tokenizer} (reached : Reached input t) : t.cursor.Within input := by
  induction reached with
  | start => exact ⟨Nat.zero_le _, rfl⟩
  | next _ ih => exact (next_ahead _).within ih
  | nextItem _ ih => exact (nextItem_ahead _).within ih

end Tokenizer

open Tokenizer

/-- Whatever calls a reader has had and wherever they have failed: further calls never take it back and never beyond
the end of its input. Behind a length, what remains is what the input has from there on, and a byte string that is
read is the slice of the input between two places in it. A call that fails changes neither the depth nor whether the
value is complete, one that yields a token takes a byte at least, and as a sequence the reader yields no more items
than there are bytes left and one, the last of which may be an error, and then nothing for good. -/
theorem reading_stays_inside {input : Bytes} {t : Tokenizer} (reached : Reached input t) :
    (∀ n, t.position ≤ (t.calls n).2.position ∧ (t.calls n).2.position ≤ input.length) ∧
    (∀ {declared behind}, t.cursor.number 58 false = (.ok declared, behind) →
      behind.position ≤ input.length ∧ behind.rest.length = input.length - behind.position ∧ 0 ≤ declared.toInt ∧
      ∀ {text after}, t.cursor.byteString = (.ok text, after) →
        after.position = behind.position + declared.toInt.toNat ∧ after.position ≤ input.length ∧
        text = (input.take after.position).drop behind.position) ∧
    (∀ {e}, t.next.1 = .error e → t.next.2.depth = t.depth ∧ t.next.2.finished = t.finished) ∧
    (∀ {token}, t.next.1 = .ok (some token) → t.position + 1 ≤ t.next.2.position) ∧
    ∃ tokens failure, t.Yields tokens failure ∧
      tokens.length + failure.toList.length ≤ input.length - t.position + 1 := by
  have within := reached.within
  refine ⟨?_, ?_, next_of_error, ?_, ?_⟩
  · intro n
    have ahead := calls_ahead n t
    exact ⟨ahead.le, (ahead.within within).1⟩
  · intro declared behind read
    have inside := (Cursor.number_ahead 58 false t.cursor).within within
    rw [read] at inside
    have place : behind.position ≤ input.length := inside.1
    have room : behind.rest.length = input.length - behind.position := inside.length_rest
    refine ⟨place, room, Cursor.length_nonneg read, ?_⟩
    intro text after readText
    rw [Cursor.byteString, read] at readText
    simp only at readText
    split_ifs at readText with overrun
    · cases readText
    · obtain ⟨isText, rfl⟩ := Prod.mk.inj readText
      have isText : behind.rest.take declared.toInt.toNat = text := Except.ok.inj isText
      refine ⟨rfl, by simp only; omega, ?_⟩
      rw [← isText, inside.2, List.take_drop]
  · intro token read
    exact (length_rest_of_token (Prod.ext read rfl)).2
  · obtain ⟨tokens, failure, yields, bound⟩ := exists_yields t
    exact ⟨tokens, failure, yields, within.length_rest ▸ bound⟩

/-- A number with a leading zero leaves the reader at its second digit, where it goes on with a byte string. -/
theorem resumed_inside_number :
    Reached [105, 48, 52, 58, 115, 112, 97, 109] (ofInput [105, 48, 52, 58, 115, 112, 97, 109]).next.2 ∧
    (ofInput [105, 48, 52, 58, 115, 112, 97, 109]).next =
      (.error ⟨1, .leadingZero⟩, ⟨[52, 58, 115, 112, 97, 109], 2, 0, false⟩) ∧
    (⟨[52, 58, 115, 112, 97, 109], 2, 0, false⟩ : Tokenizer).next =
      (.ok (some (.bytes [115, 112, 97, 109])), ⟨[], 8, 0, true⟩) ∧
    ∃ tokens failure, (⟨[52, 58, 115, 112, 97, 109], 2, 0, false⟩ : Tokenizer).Yields tokens failure ∧
      tokens.length + failure.toList.length ≤ 7 := by
  have failed : (ofInput [105, 48, 52, 58, 115, 112, 97, 109]).next =
      (.error ⟨1, .leadingZero⟩, ⟨[52, 58, 115, 112, 97, 109], 2, 0, false⟩) := by decide +kernel
  have reached : Reached [105, 48, 52, 58, 115, 112, 97, 109] (ofInput [105, 48, 52, 58, 115, 112, 97, 109]).next.2 :=
    .next .start
  obtain ⟨-, -, -, -, yields⟩ := reading_stays_inside reached
  rw [failed] at yields
  exact ⟨reached, failed, by decide +kernel, yields⟩

end PeerSubstrate.Bencode
