import QuantumScript.Syntax.Grammar.Expressions
/-!
# Productions of statements

Simple statements share lines, separated by semicolons. Compound statements hold suites: an
indented block, or the rest of the line.
-/

namespace QuantumScript

namespace Syntax

namespace Production

def valueList : Production :=
  .cond (next (.keyword .yieldWord)) (.call .yield) (.call .expressionList)

def typeHint : Production :=
  whenAt [.symbol .colon] <| .node (.always .typeHint) <|
    .seq (.bump (.symbol .colon)) (.call .expression)

/-- An expression, an annotated one, an augmented assignment, or a chain of assignments. -/
def expressionStatement : Production :=
  steps
    [ valueList,
      typeHint,
      .cond (eat (.symbol .augmented)) valueList
        (.loop (.cond (eat (.symbol .equals)) (.seq valueList (.answer true)) (.answer false))) ]

def raiseStatement : Production :=
  .seq (.bump (.keyword .raiseWord)) <|
    .cond (.ask (.at Parse.statementEnds)) (.answer true) <|
      .seq (.call .expression)
        (.cond (eat (.keyword .fromWord)) (.call .expression) (.answer false))

/-- Names with dots between them; dots before the first name make the path relative. -/
def dottedName : Production :=
  .node (.always .dottedName) <| steps
    [ .loop (eat (.symbol .dot)),
      name,
      .loop <| .cond (.ask (.atPair [.symbol .dot] .name))
        (steps [.bump (.symbol .dot), name, .answer true]) (.answer false) ]

/-- The name after `as`, if there is one. -/
def asName : Production := .cond (eat (.keyword .asWord)) name (.answer false)

def importStatement : Production :=
  .seq (.bump (.keyword .importWord)) <| .loop <|
    .seq (.node (.always .importAlias) (.seq dottedName asName)) (eat (.symbol .comma))

def fromImportStatement : Production :=
  let imported := .node (.always .importAlias) (.seq name asName)
  steps
    [ .bump (.keyword .fromWord),
      dottedName,
      .cond (expect (.keyword .importWord))
        (.cond (eat (.symbol .star)) (.answer true) <|
          .cond (eat (.symbol .leftParen))
            (.seq
              (.loop <| .seq imported <| .cond (eat (.symbol .comma))
                (.cond (next (.symbol .rightParen)) (.answer false) (.answer true))
                (.answer false))
              (expect (.symbol .rightParen)))
            (.loop (.seq imported (eat (.symbol .comma)))))
        (.answer false) ]

/-- A statement that holds no block. -/
def simpleStatement : Production :=
  .cond (next (.keyword .passWord)) (.statement .passStatement (.bump (.keyword .passWord))) <|
  .cond (next (.keyword .breakWord))
    (.statement .breakStatement (.bump (.keyword .breakWord))) <|
  .cond (next (.keyword .continueWord))
    (.statement .continueStatement (.bump (.keyword .continueWord))) <|
  .cond (next (.keyword .returnWord))
    (.statement .returnStatement <| .seq (.bump (.keyword .returnWord)) <|
      .cond (.ask (.at Parse.statementEnds)) (.answer true) (.call .expressionList)) <|
  .cond (next (.keyword .importWord)) (.statement .importStatement importStatement) <|
  .cond (next (.keyword .fromWord)) (.statement .fromImportStatement fromImportStatement) <|
  .cond (next (.keyword .raiseWord)) (.statement .raiseStatement raiseStatement) <|
  .cond (next (.keyword .assertWord))
    (.statement .assertStatement <| steps
      [ .bump (.keyword .assertWord),
        .call .expression,
        .cond (eat (.symbol .comma)) (.call .expression) (.answer false) ]) <|
  .cond (next (.keyword .delWord))
    (.statement .delStatement <| .seq (.bump (.keyword .delWord)) (.call .targetList)) <|
  .cond (.ask (.at [.keyword .globalWord, .keyword .nonlocalWord]))
    (.statement .globalStatement <| .seq .advance <|
      .loop (.seq name (eat (.symbol .comma)))) <|
  .statement .expressionStatement expressionStatement

/-- Simple statements on one line, each but the last followed by a semicolon. -/
def simpleLine : Production :=
  .seq
    (.loop <| .seq (.call .simpleStatement) <|
      .cond (eat (.symbol .semicolon))
        (.cond (.ask (.at [.newline, .endOfInput])) (.answer false) (.answer true))
        (.answer false))
    (.cond (next .endOfInput) (.answer true) (expect .newline))

/-- An indented block, or the rest of the line. -/
def suite : Production :=
  .node (.always .suite) <|
    .cond (eat .newline)
      (.cond (eat .indent)
        (.seq
          (.loop <| .cond (.ask (.at [.dedent, .endOfInput])) (.answer false) <|
            .cond (next .newline) (.bump .newline) (.seq (.call .statement) (.answer true)))
          (eat .dedent))
        (.report .missingBlock))
      (.cond (next .endOfInput) (.answer true) (.call .simpleLine))

/-- The colon and the suite after the head of a compound statement. -/
def block : Production := .seq (expect (.symbol .colon)) (.call .suite)

def conditionAndBlock : Production := .seq (.call .expression) block

def parameters : Production :=
  .node (.always .parameters) <|
    bracketed (.symbol .leftParen) (.symbol .rightParen) parameterFirst <|
      .cond (.ask (.at parameterFirst)) (.seq (.call .parameter) (.answer true))
        (.report .missingParameter)

def parameter : Production :=
  .node (.always .parameter) <| steps
    [ stars,
      nameOr [.symbol .comma, .symbol .rightParen],
      typeHint,
      defaultValue ]

def returnType : Production :=
  whenAt [.symbol .arrow] <| .node (.always .returnType) <|
    .seq (.bump (.symbol .arrow)) (.call .expression)

/-- A function from its keyword on. -/
def functionBody : Production :=
  steps
    [ .bump (.keyword .defWord),
      nameOr [.symbol .leftParen, .symbol .colon],
      .cond (next (.symbol .leftParen)) (.call .parameters) (.report .missingParameters),
      returnType,
      block ]

/-- A class from its keyword on. -/
def classBody : Production :=
  steps
    [ .bump (.keyword .classWord),
      nameOr [.symbol .leftParen, .symbol .colon],
      whenAt [.symbol .leftParen] (.call .arguments),
      block ]

def function : Production :=
  .seq (.demand [.keyword .defWord]) (.node (.always .function) functionBody)

def classDefinition : Production :=
  .seq (.demand [.keyword .classWord]) (.node (.always .classDefinition) classBody)

/-- Decorators are parts of the definition that they stand before. -/
def decorated : Production :=
  .seq (.demand [.symbol .at]) <| .node .definition <| .seq
    (whileAt [.symbol .at] <| .node (.always .decorator) <| steps
      [.bump (.symbol .at), .call .expression, expect .newline])
    (.cond (next (.keyword .defWord)) functionBody <|
      .cond (next (.keyword .classWord)) classBody (.report .missingDefinition))

def elseClause : Production :=
  whenAt [.keyword .elseWord] <| .node (.always .elseClause) <|
    .seq (.bump (.keyword .elseWord)) block

def ifStatement : Production :=
  .seq (.demand [.keyword .ifWord]) <| .node (.always .ifStatement) <| steps
    [ .bump (.keyword .ifWord),
      conditionAndBlock,
      whileAt [.keyword .elifWord] <| .node (.always .elifClause) <|
        .seq (.bump (.keyword .elifWord)) conditionAndBlock,
      .call .elseClause ]

def whileStatement : Production :=
  .seq (.demand [.keyword .whileWord]) <| .node (.always .whileStatement) <| steps
    [.bump (.keyword .whileWord), conditionAndBlock, .call .elseClause]

def forStatement : Production :=
  .seq (.demand [.keyword .forWord]) <| .node (.always .forStatement) <| steps
    [ .bump (.keyword .forWord),
      .call .targetList,
      expect (.keyword .inWord),
      .call .expressionList,
      block,
      .call .elseClause ]

def withStatement : Production :=
  .seq (.demand [.keyword .withWord]) <| .node (.always .withStatement) <| steps
    [ .bump (.keyword .withWord),
      .loop <| .seq
        (.node (.always .withItem) <| .seq (.call .expression) <|
          .cond (eat (.keyword .asWord)) (.call .bitOr) (.answer false))
        (eat (.symbol .comma)),
      block ]

def exceptClause : Production :=
  .node (.always .exceptClause) <| steps
    [ .bump (.keyword .exceptWord),
      .cond (next (.symbol .colon)) (.answer true) (.seq (.call .expression) asName),
      block ]

def finallyClause : Production :=
  .node (.always .finallyClause) (.seq (.bump (.keyword .finallyWord)) block)

/-- An `else` is read only after a handler; without a handler there must be a `finally`. -/
def tryStatement : Production :=
  .seq (.demand [.keyword .tryWord]) <| .node (.always .tryStatement) <| steps
    [ .bump (.keyword .tryWord),
      block,
      .cond (next (.keyword .exceptWord))
        (steps
          [ whileAt [.keyword .exceptWord] exceptClause,
            .call .elseClause,
            whenAt [.keyword .finallyWord] finallyClause ])
        (.cond (next (.keyword .finallyWord)) finallyClause (.report .missingHandler)) ]

def statement : Production :=
  .cond (next (.keyword .defWord)) (.call .function) <|
  .cond (next (.keyword .classWord)) (.call .classDefinition) <|
  .cond (next (.keyword .ifWord)) (.call .ifStatement) <|
  .cond (next (.keyword .whileWord)) (.call .whileStatement) <|
  .cond (next (.keyword .forWord)) (.call .forStatement) <|
  .cond (next (.keyword .withWord)) (.call .withStatement) <|
  .cond (next (.keyword .tryWord)) (.call .tryStatement) <|
  .cond (next (.symbol .at)) (.call .decorated) <|
  .cond (next .indent) (spoil .unexpectedIndent) <|
  .call .simpleLine

/-- All statements of a script. Line ends and block ends left over from a line indented by mistake
are passed over. -/
def file : Production :=
  .loop <| .cond (next .endOfInput) (.answer false) <|
    .cond (.ask (.at [.dedent, .newline])) .advance (.seq (.call .statement) (.answer true))

end Production

end Syntax

end QuantumScript
