import QuantumScript.Syntax.Layout
/-!
# Syntax errors

An error is a problem at a span of the source. Its message is written only when it is shown.
-/

namespace QuantumScript

namespace Syntax

/-- What can be wrong with a script. -/
inductive Problem
  | flaw (flaw : Flaw)
  | missing (kind : TokenKind)
  | missingSeparator (kind : TokenKind)
  | missingName
  | missingExpression
  | missingParameter
  | missingParameters
  | missingIndex
  | missingBlock
  | missingDefinition
  | missingHandler
  | unexpectedIndent
  | unexpected (text : List Char)
  deriving DecidableEq, Repr

/-- How a missing token is called in a message. -/
def TokenKind.description : TokenKind → String
  | .newline => "end of line"
  | .indent => "an indented block"
  | .name => "a name"
  | .symbol .rightParen => "`)`"
  | .symbol .rightBracket => "`]`"
  | .symbol .rightBrace => "`\x7d`"
  | .symbol .colon => "`:`"
  | .keyword .inWord => "`in`"
  | .keyword .importWord => "`import`"
  | _ => "another token"

def Problem.message : Problem → String
  | .flaw f => f.message
  | .missing kind => "expected " ++ kind.description
  | .missingSeparator kind => "expected " ++ kind.written
  | .missingName => "expected a name"
  | .missingExpression => "expected an expression"
  | .missingParameter => "expected a parameter"
  | .missingParameters => "expected function arguments"
  | .missingIndex => "expected an index"
  | .missingBlock => "expected an indented block"
  | .missingDefinition => "expected `def` or `class` after decorators"
  | .missingHandler => "expected `except` or `finally`"
  | .unexpectedIndent => "unexpected indent"
  | .unexpected text => "unexpected " ++ String.ofList text

structure Error where
  problem : Problem
  span : Span
  deriving DecidableEq, Repr

def Error.message (error : Error) : String := error.problem.message

/-- The flaws of tokens that start at the given offset, each with the span of its token. -/
def Error.ofTokens (offset : Nat) : List Token → List Error
  | [] => []
  | token :: tokens =>
    let stop := offset + Text.byteLength token.text
    (token.flaw.toList.map fun flaw => ⟨.flaw flaw, offset, stop⟩) ++ ofTokens stop tokens

end Syntax

end QuantumScript
