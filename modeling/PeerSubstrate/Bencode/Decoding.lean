import PeerSubstrate.Bencode.Token

/-!
# Reading messages

A message is one dictionary. Reading goes token by token over a stack of the containers that are
still open, innermost first, and never recurses, so that input nested as deep as `maxDepth` allows
costs no more than its length. Bytes behind the closing marker of the dictionary are left alone.
-/

namespace PeerSubstrate.Bencode

/-- A container that is still being filled: the entries so far, with the key that waits for its value, or the
items so far, newest first. -/
inductive Frame where
  | dict (entries : Dict) (key : Option Bytes)
  | list (newest : List Value)

structure Decoder where
  tokens : Tokenizer
  stack : List Frame := []

namespace Decoder

/-- The innermost container is a dictionary in want of a key. -/
def awaitingKey : List Frame → Bool
  | .dict _ none :: _ => true
  | _ => false

/-- Either the reader goes on, or the message is complete: its dictionary and the offset behind it. -/
inductive Progress where
  | more (decoder : Decoder)
  | complete (dict : Dict) (stop : Nat)

/-- Puts a complete value into the innermost container, or ends the message with it. -/
def place (value : Value) (tokens : Tokenizer) : List Frame → Except DecodeError Progress
  | [] => match value with
    | .dict entries => .ok (.complete entries tokens.position)
    | _ => .error ⟨0, .notADictionary⟩
  | .list newest :: outer => .ok (.more ⟨tokens, .list (value :: newest) :: outer⟩)
  | .dict entries (some key) :: outer =>
    .ok (.more ⟨tokens, .dict (entries.insert key value) none :: outer⟩)
  | .dict entries none :: outer => .ok (.more ⟨tokens, .dict entries none :: outer⟩)

def openFrame (frame : Frame) (offset : Nat) (tokens : Tokenizer) (stack : List Frame) :
    Except DecodeError Progress :=
  if awaitingKey stack then .error ⟨offset, .nonStringKey⟩
  else if stack.length ≥ maxDepth then .error ⟨offset, .tooDeep⟩
  else .ok (.more ⟨tokens, frame :: stack⟩)

def closeFrame (offset : Nat) (tokens : Tokenizer) : List Frame → Except DecodeError Progress
  | [] => .error ⟨offset, .unexpectedByte 101⟩
  | .dict _ (some _) :: _ => .error ⟨offset, .missingValue⟩
  | .dict entries none :: outer => place (.dict entries) tokens outer
  | .list newest :: outer => place (.list newest.reverse) tokens outer

/-- Takes one token in, which began at `offset`. -/
def accept (token : Token) (offset : Nat) (tokens : Tokenizer) (stack : List Frame) :
    Except DecodeError Progress :=
  match token with
  | .dictStart => openFrame (.dict [] none) offset tokens stack
  | .listStart => openFrame (.list []) offset tokens stack
  | .close => closeFrame offset tokens stack
  | .int number =>
    if awaitingKey stack then .error ⟨offset, .nonStringKey⟩ else place (.int number) tokens stack
  | .bytes text =>
    match stack with
    | .dict entries none :: outer =>
      if entries.contains text then .error ⟨offset, .duplicateKey text⟩
      else .ok (.more ⟨tokens, .dict entries (some text) :: outer⟩)
    | _ => place (.bytes text) tokens stack

def step (d : Decoder) : Except DecodeError Progress :=
  match d.tokens.next with
  | (.error e, _) => .error e
  | (.ok none, _) => .error ⟨d.tokens.position, .unexpectedEnd⟩
  | (.ok (some token), tokens) => accept token d.tokens.position tokens d.stack

/-- Steps until the message is complete, at most `steps` times. -/
def run : Nat → Decoder → Except DecodeError (Dict × Nat)
  | 0, d => .error ⟨d.tokens.position, .unexpectedEnd⟩
  | steps + 1, d =>
    match d.step with
    | .error e => .error e
    | .ok (.complete dict stop) => .ok (dict, stop)
    | .ok (.more d) => run steps d

end Decoder

/-- Reads a dictionary from the start of `input`, and tells the offset behind it. Every token takes at
least one byte, so one step more than there are bytes is enough. -/
def decodeStart (input : Bytes) : Except DecodeError (Dict × Nat) :=
  match input with
  | [] => .error ⟨0, .unexpectedEnd⟩
  | byte :: _ =>
    if byte = 100 then Decoder.run (input.length + 1) { tokens := .ofInput input }
    else .error ⟨0, .notADictionary⟩

/-- Reads a dictionary and ignores what follows it. -/
def decode (input : Bytes) : Except DecodeError Dict := (decodeStart input).map Prod.fst

end PeerSubstrate.Bencode
