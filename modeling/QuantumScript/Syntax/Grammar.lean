import QuantumScript.Syntax.Grammar.Statements
/-!
# The grammar

The grammar gives each rule its production. Parsing never fails: a statement that cannot be read
becomes an error node, and the errors stand beside the tree.
-/

namespace QuantumScript

namespace Syntax

open Production

/-- The production of each rule. -/
def grammar : Rule → Production
  | .expressionList => listOf (.call .expression)
  | .targetList => listOf (.call .bitOr)
  | .expression => expression
  | .lambda => lambda
  | .yield => yield
  | .disjunction => joined [.keyword .orWord] (.call .conjunction)
  | .conjunction => joined [.keyword .andWord] (.call .negation)
  | .negation => negation
  | .comparison => comparison
  | .bitOr => joined [.symbol .bar] (.call .bitXor)
  | .bitXor => joined [.symbol .caret] (.call .bitAnd)
  | .bitAnd => joined [.symbol .ampersand] (.call .shift)
  | .shift => joined [.symbol .shiftLeft, .symbol .shiftRight] (.call .sum)
  | .sum => joined [.symbol .plus, .symbol .minus] (.call .product)
  | .product =>
    joined [.symbol .star, .symbol .slash, .symbol .doubleSlash, .symbol .percent, .symbol .at]
      (.call .factor)
  | .factor => factor
  | .power => power
  | .chain => chain
  | .atom => atom
  | .parenthesized => parenthesized
  | .list => list
  | .dictionary => dictionary
  | .clauses => clauses
  | .arguments => arguments
  | .argument => argument
  | .subscripts => subscripts
  | .subscript => subscript
  | .attribute => attributeAccess
  | .statement => statement
  | .simpleLine => simpleLine
  | .simpleStatement => simpleStatement
  | .function => function
  | .classDefinition => classDefinition
  | .decorated => decorated
  | .parameters => parameters
  | .parameter => parameter
  | .ifStatement => ifStatement
  | .whileStatement => whileStatement
  | .forStatement => forStatement
  | .withStatement => withStatement
  | .tryStatement => tryStatement
  | .elseClause => elseClause
  | .suite => suite

/-- More calls than can be nested without taking a token. -/
def callDepth : Nat := 24

/-- Runs the grammar on all tokens, and takes the tokens that are left. -/
def parseTokens (tokens : List Token) : Parse :=
  let rules := Script.runRule grammar (callDepth * (tokens.length + 1))
  (Production.file.run rules (.start tokens)).2.shiftWhile fun _ => true

/-- A syntax tree with its errors by start. Among errors with one start those of the grammar come
before flaws of tokens. -/
structure Parsed where
  tree : Tree
  errors : List Error
  deriving Repr

/-- Reads a whole source text. -/
def parse (source : List Char) : Parsed :=
  let tokens := Token.ofText source
  let done := parseTokens tokens
  ⟨.node .file done.parts.reverse,
    (done.errors.reverse ++ Error.ofTokens 0 tokens).mergeSort
      fun a b => a.span.start ≤ b.span.start⟩

end Syntax

end QuantumScript
