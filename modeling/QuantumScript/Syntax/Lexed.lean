import QuantumScript.Syntax.Layout
/-!
# Indexed tokens

The tokens of a text are indexed, so that the place and the flaw of a token can be looked up. The flaws are
listed with the indexes of their tokens.
-/

namespace QuantumScript

namespace Syntax

/-- Tokens with their places and flaws. -/
structure Lexed where
  tokens : Array Token
  /-- The offset at which each token starts. -/
  starts : Array Nat
  /-- The offset at which the last token stops. -/
  stop : Nat
  /-- Each flaw under the index of its token. -/
  flaws : Array (Nat × Flaw)
  deriving Repr

namespace Lexed

def empty : Lexed := ⟨#[], #[], 0, #[]⟩

/-- Adds a token. Its index is one less than the number of tokens that there are then. Kept in
32 bits the index of a flaw is the same for up to `Text.maxOffset` tokens. -/
def push (lexed : Lexed) (token : Token) : Lexed :=
  let tokens := lexed.tokens.push token
  { tokens
    starts := lexed.starts.push lexed.stop
    stop := lexed.stop + Text.byteLength token.text
    flaws :=
      match token.flaw with
      | none => lexed.flaws
      | some flaw => lexed.flaws.push (tokens.size - 1, flaw) }

def ofText (text : List Char) : Lexed := (Token.ofText text).foldl push empty

/-- Where the token with an index starts, or where the last token stops if there are too few of them. -/
def start (lexed : Lexed) (index : Nat) : Nat := lexed.starts.getD index lexed.stop

/-- The span of the token with an index, empty at the end. -/
def span (lexed : Lexed) (index : Nat) : Span := ⟨lexed.start index, lexed.start (index + 1)⟩

/-- Looks for an index among the entries from `low` up to, not including, `high` by halving. -/
def search (flaws : Array (Nat × Flaw)) (index low high : Nat) : Option Flaw :=
  if low < high then
    let middle := low + (high - low) / 2
    match flaws[middle]? with
    | none => none
    | some (found, flaw) =>
      if found = index then some flaw
      else if found < index then search flaws index (middle + 1) high
      else search flaws index low middle
  else none
  termination_by high - low

/-- The flaw of the token with an index. -/
def flaw? (lexed : Lexed) (index : Nat) : Option Flaw := search lexed.flaws index 0 lexed.flaws.size

end Lexed

end Syntax

end QuantumScript
