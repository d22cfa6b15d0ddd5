import QuantumScript.Syntax.Grammar.Rule
/-!
# Productions of expressions

From the loosest binding to the tightest. An atom with its calls, subscripts and attributes is one
flat chain; a bare atom is not wrapped. A production that answers no has taken nothing that could
be an expression.
-/

namespace QuantumScript

namespace Syntax

namespace Production

/-- Tokens that start a literal. -/
def literalFirst : List TokenKind :=
  [.integer, .float, .imaginary, .quoted, .keyword .trueWord, .keyword .falseWord,
    .keyword .noneWord]

/-- Tokens that start an atom. -/
def atomFirst : List TokenKind :=
  literalFirst.append [.name, .symbol .leftParen, .symbol .leftBracket, .symbol .leftBrace]

/-- Tokens that start an expression. -/
def expressionFirst : List TokenKind :=
  atomFirst.append [.symbol .minus, .symbol .plus, .symbol .tilde, .keyword .notWord,
    .keyword .lambdaWord]

/-- Tokens that are left alone where an expression is missing. -/
def expressionStops : List TokenKind :=
  [.symbol .rightParen, .symbol .rightBracket, .symbol .rightBrace, .symbol .colon,
    .symbol .equals, .symbol .comma, .symbol .semicolon, .symbol .augmented, .indent, .dedent]

/-- Tokens that start a parameter. -/
def parameterFirst : List TokenKind := [.name, .symbol .star, .symbol .doubleStar]

/-- Tokens that start a call, a subscript or an attribute. -/
def trailerFirst : List TokenKind := [.symbol .leftParen, .symbol .leftBracket, .symbol .dot]

def argumentFirst : List TokenKind := expressionFirst.append [.symbol .star, .symbol .doubleStar]

def subscriptFirst : List TokenKind := expressionFirst.append [.symbol .colon]

/-- Items separated by commas, perhaps with one after the last item. They become a list only if
there is a comma. -/
def listOf (item : Production) : Production :=
  .cond item
    (.cond (next (.symbol .comma))
      (.wrap .expressionList <| .loop <|
        .cond (eat (.symbol .comma)) (whenAt expressionFirst (.seq item (.answer true)))
          (.answer false))
      (.answer true))
    (.answer false)

/-- Operands joined from the left by operators of one level. -/
def joined (operators : List TokenKind) (operand : Production) : Production :=
  .cond operand
    (.seq (whileAt operators (.wrap .binary (.seq .advance operand))) (.answer true))
    (.answer false)

/-- An expression, or two of them with a condition between. -/
def expression : Production :=
  .cond (next (.keyword .lambdaWord)) (.call .lambda) <|
    .cond (.call .disjunction)
      (.cond (next (.keyword .ifWord))
        (.wrap .conditional <| steps
          [ .bump (.keyword .ifWord),
            .call .disjunction,
            .cond (expect (.keyword .elseWord)) (.call .expression) (.answer false) ])
        (.answer true))
      (.answer false)

/-- The value that a parameter takes when no argument is given. -/
def defaultValue : Production :=
  whenAt [.symbol .equals] <| .node (.always .defaultValue) <|
    .seq (.bump (.symbol .equals)) (.call .expression)

def lambda : Production :=
  .seq (.demand [.keyword .lambdaWord]) <| .node (.always .lambda) <| steps
    [ .bump (.keyword .lambdaWord),
      .node (.always .parameters) <| .loop <| whenAt parameterFirst <|
        .seq (.node (.always .parameter) <| steps [stars, name, defaultValue])
          (eat (.symbol .comma)),
      expect (.symbol .colon),
      .call .expression ]

def yield : Production :=
  .seq (.demand [.keyword .yieldWord]) <| .node (.always .yield) <|
    .seq (.bump (.keyword .yieldWord)) <|
      .cond (eat (.keyword .fromWord)) (.call .expression)
        (whenAt expressionFirst (.call .expressionList))

def negation : Production :=
  .cond (next (.keyword .notWord))
    (.node (.always .unary) (.seq (.bump (.keyword .notWord)) (.call .negation)))
    (.call .comparison)

/-- Symbols and words that compare. -/
def comparisonOperators : List TokenKind :=
  [.symbol .less, .symbol .greater, .symbol .equality, .symbol .inequality, .symbol .lessEqual,
    .symbol .greaterEqual, .keyword .inWord, .keyword .isWord]

def comparison : Production :=
  .cond (.call .bitOr)
    (.seq
      (.loop <|
        .cond (.ask (.atPair [.keyword .notWord] (.keyword .inWord)))
          (.wrap .binary <| steps
            [.bump (.keyword .notWord), .bump (.keyword .inWord), .call .bitOr]) <|
        whenAt comparisonOperators <|
          .wrap .binary <|
            .seq (.cond (eat (.keyword .isWord)) (eat (.keyword .notWord)) .advance)
              (.call .bitOr))
      (.answer true))
    (.answer false)

/-- Signs bind tighter than products. -/
def signs : List TokenKind := [.symbol .minus, .symbol .plus, .symbol .tilde]

def factor : Production :=
  .cond (.ask (.at signs))
    (.node (.always .unary) (.seq .advance (.call .factor)))
    (.call .power)

/-- A power binds tighter than a sign on its left and looser than one on its right. -/
def power : Production :=
  .cond (.call .chain)
    (.cond (next (.symbol .doubleStar))
      (.wrap .binary (.seq (.bump (.symbol .doubleStar)) (.call .factor)))
      (.answer true))
    (.answer false)

def trailer : Production :=
  .cond (next (.symbol .leftParen)) (.call .arguments) <|
    .cond (next (.symbol .leftBracket)) (.call .subscripts) (.call .attribute)

def chain : Production :=
  .cond (.call .atom)
    (.cond (.ask (.at trailerFirst)) (.wrap .chain (whileAt trailerFirst trailer))
      (.answer true))
    (.answer false)

/-- Strings next to each other are one literal. -/
def literal : Production :=
  .seq (.demand literalFirst) <| .node (.always .literal) <|
    .cond (next .quoted) (.loop (eat .quoted)) .advance

def atom : Production :=
  .cond (.ask (.at literalFirst)) literal <|
    .cond (next .name) (.node (.always .name) (.bump .name)) <|
    .cond (next (.symbol .leftParen)) (.call .parenthesized) <|
    .cond (next (.symbol .leftBracket)) (.call .list) <|
    .cond (next (.symbol .leftBrace)) (.call .dictionary) <|
      .seq (recover .missingExpression expressionStops) (.answer false)

def parenthesized : Production :=
  .node (.unlessComprehension .parenthesized) <| steps
    [ .bump (.symbol .leftParen),
      .cond (next (.symbol .rightParen)) (.answer true)
        (.seq (.call .expressionList) (.call .clauses)),
      expect (.symbol .rightParen) ]

def list : Production :=
  .node (.unlessComprehension .list) <|
    bracketed (.symbol .leftBracket) (.symbol .rightBracket) expressionFirst <|
      .cond (.call .expression) (.seq (.call .clauses) (.answer true)) (.answer false)

/-- Entries may lack their value, so sets are read too. -/
def dictionary : Production :=
  .node (.unlessComprehension .dictionary) <|
    bracketed (.symbol .leftBrace) (.symbol .rightBrace) expressionFirst <|
      .cond (.call .expression)
        (steps
          [ .cond (eat (.symbol .colon)) (.call .expression) (.answer false),
            .call .clauses,
            .answer true ])
        (.answer false)

/-- The clauses of a comprehension after its element, the first of them a `for`. -/
def clauses : Production :=
  whenAt [.keyword .forWord] <| .loop <|
    .cond (next (.keyword .forWord))
      (.node (.always .forClause) <| steps
        [ .bump (.keyword .forWord),
          .call .targetList,
          expect (.keyword .inWord),
          .call .disjunction ]) <|
    whenAt [.keyword .ifWord] <|
      .node (.always .ifClause) (.seq (.bump (.keyword .ifWord)) (.call .disjunction))

def arguments : Production :=
  .node (.always .arguments) <|
    bracketed (.symbol .leftParen) (.symbol .rightParen) argumentFirst <|
      whenAt argumentFirst (.seq (.call .argument) (.answer true))

/-- A generator may be an argument without brackets of its own. -/
def argument : Production :=
  .node (.always .argument) <| steps
    [ stars,
      .cond (.ask (.atPair [.name] (.symbol .equals)))
        (.seq name (.bump (.symbol .equals))) (.answer false),
      .cond (.call .expression)
        (whenAt [.keyword .forWord] (.wrap .comprehension (.call .clauses)))
        (.answer false) ]

def subscripts : Production :=
  .node (.always .subscripts) <|
    bracketed (.symbol .leftBracket) (.symbol .rightBracket) subscriptFirst <|
      .cond (.ask (.at subscriptFirst)) (.seq (.call .subscript) (.answer true))
        (.report .missingIndex)

/-- An index or a slice, whose bounds and step may be missing. -/
def subscript : Production :=
  let bound := whenAt expressionFirst (.call .expression)
  .node (.always .subscript) <| .seq
    (.cond (next (.symbol .colon)) (.answer false) (.call .expression))
    (.cond (eat (.symbol .colon))
      (.seq bound (.cond (eat (.symbol .colon)) bound (.answer false)))
      (.answer false))

def attributeAccess : Production :=
  .node (.always .attribute) (.seq (.bump (.symbol .dot)) (nameOr trailerFirst))

end Production

end Syntax

end QuantumScript
