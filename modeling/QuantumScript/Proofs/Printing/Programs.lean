import QuantumScript.Proofs.Printing.Statements
/-!
# Programs

Abstract programs, and how they are printed: each simple statement on a line of its own, and the lines
of a block at one width that is larger than the width around it.
-/

namespace QuantumScript

namespace Syntax

/-- A parameter of a function. -/
structure Parameter where
  stars : Stars
  name : Name
  hint : Option Expression
  value : Option Expression

/-- What is entered by a `with` statement, and where it is kept. -/
structure Entered where
  value : Expression
  target : Option Expression

/-- What is caught by an `except` clause, and under which name. -/
structure Caught where
  exception : Expression
  name : Option Name

/-- Sorts of pieces of programs. -/
inductive Segment
  | statement
  | statements
  | block
  | branches
  | otherwise
  | handlers
  | cleanup
  deriving DecidableEq, Repr

/-- Abstract programs and what they are made of. -/
inductive Code : Segment → Type
  | simple (simple : Simple) : Code .statement
  | function (decorators : List Expression) (name : Name) (parameters : List Parameter)
    (result : Option Expression) (body : Code .block) : Code .statement
  | classDefinition (decorators : List Expression) (name : Name)
    (bases : Option (Phrase (.items .argument))) (body : Code .block) : Code .statement
  | choice (condition : Expression) (body : Code .block) (branches : Code .branches)
    (otherwise : Code .otherwise) : Code .statement
  | repeated (condition : Expression) (body : Code .block) (otherwise : Code .otherwise) :
    Code .statement
  | each (targets : Phrase .targets) (iterable : Expression) (body : Code .block)
    (otherwise : Code .otherwise) : Code .statement
  | entering (first : Entered) (others : List Entered) (body : Code .block) : Code .statement
  | attempt (body : Code .block) (caught : Option Caught) (handler : Code .block)
    (handlers : Code .handlers) (otherwise : Code .otherwise) (cleanup : Code .cleanup) :
    Code .statement
  /-- An attempt without a handler. -/
  | assured (body cleanup : Code .block) : Code .statement
  | noStatements : Code .statements
  | statements (first : Code .statement) (others : Code .statements) : Code .statements
  /-- The width of the block is larger than the one around it by one and `extra`. -/
  | block (extra : Nat) (first : Code .statement) (others : Code .statements) : Code .block
  | noBranches : Code .branches
  | branches (condition : Expression) (body : Code .block) (others : Code .branches) :
    Code .branches
  | noOtherwise : Code .otherwise
  | otherwise (body : Code .block) : Code .otherwise
  | noHandlers : Code .handlers
  | handlers (caught : Option Caught) (body : Code .block) (others : Code .handlers) :
    Code .handlers
  | noCleanup : Code .cleanup
  | cleanup (body : Code .block) : Code .cleanup

/-- The line breaks of a text. -/
inductive Ending
  | lineFeed | both
  deriving DecidableEq, Repr

def Ending.text : Ending → List Char
  | .lineFeed => ['\n']
  | .both => ['\r', '\n']

/-- How lines begin and end. -/
structure Style where
  /-- The blanks before a line of each width. -/
  margin : Nat → List Char
  blank : ∀ width, ∀ c ∈ margin width, Text.isBlank c = true
  blankWidth_margin : ∀ width, Layout.blankWidth (margin width) = width
  ending : Ending

namespace Style

/-- The token at the end of each line. -/
def lineBreak (style : Style) : Token := .lineBreak style.ending.text

def line (style : Style) (width : Nat) (print : Print) : Line :=
  ⟨style.margin width, print.words, style.ending.text⟩

/-- The line before a block. -/
def head (style : Style) (width : Nat) (print : Print) : Line :=
  style.line width (print ++ .mark .colon)

end Style

namespace Print

/-- The colon and the block after it. -/
def block (body : Print) : Print := mark .colon ++ body

def hint : Option Expression → Print
  | none => empty
  | some value => (mark .colon ++ value.tight).node .typeHint

def default : Option Expression → Print
  | none => empty
  | some value => (mark .equals ++ value.tight).node .defaultValue

def result : Option Expression → Print
  | none => empty
  | some value => (mark .arrow ++ value.tight).node .returnType

def bases : Option (Phrase (.items .argument)) → Print
  | none => empty
  | some arguments => (between .round arguments.print).node .arguments

def caught : Option Caught → Print
  | none => empty
  | some caught => caught.exception.tight ++ asPrint caught.name

/-- A target after `as`. -/
def target : Option Expression → Print
  | none => empty
  | some value => word .asWord ++ value.print.guard .bitOr value.rule

end Print

open Print in
def Parameter.print (parameter : Parameter) : Print :=
  (leaves parameter.stars.tokens ++ (.name parameter.name ++
    (.hint parameter.hint ++ .default parameter.value))).node .parameter

def Entered.print (entered : Entered) : Print :=
  (entered.value.tight ++ .target entered.target).node .withItem

namespace Print

def parameters (parameters : List Parameter) : Print :=
  (between .round (items (parameters.map Parameter.print))).node .parameters

/-- The line of a decorator. -/
def decorator (style : Style) (value : Expression) : Print :=
  (mark .at ++ (value.tight ++ leaf style.lineBreak)).node .decorator

end Print

namespace Code

variable (style : Style)

open Print in
def print {segment : Segment} : Code segment → Print
  | .simple content => content.print ++ leaf style.lineBreak
  | .function decorators label parameters value body =>
    (concat (decorators.map (decorator style)) ++ (word .defWord ++ (.name label ++
      (.parameters parameters ++ (.result value ++ .block body.print))))).node .function
  | .classDefinition decorators label arguments body =>
    (concat (decorators.map (decorator style)) ++ (word .classWord ++ (.name label ++
      (.bases arguments ++ .block body.print)))).node .classDefinition
  | .choice condition body others final =>
    (word .ifWord ++ ((condition.tight ++ .block body.print) ++
      (others.print ++ final.print))).node .ifStatement
  | .repeated condition body final =>
    (word .whileWord ++ ((condition.tight ++ .block body.print) ++ final.print)).node .whileStatement
  | .each targets iterable body final =>
    (word .forWord ++ (targets.print ++ (word .inWord ++ (iterable.loose ++
      (.block body.print ++ final.print))))).node .forStatement
  | .entering first more body =>
    (word .withWord ++ (items ((first :: more).map Entered.print) ++ .block body.print)).node
      .withStatement
  | .attempt body caught handler others final finish =>
    (word .tryWord ++ (.block body.print ++
      (((word .exceptWord ++ (.caught caught ++ .block handler.print)).node .exceptClause ++
        others.print) ++ (final.print ++ finish.print)))).node .tryStatement
  | .assured body finish =>
    (word .tryWord ++ (.block body.print ++
      (word .finallyWord ++ .block finish.print).node .finallyClause)).node .tryStatement
  | .noStatements => empty
  | .statements first more => first.print ++ more.print
  | .block _ first more =>
    (leaf style.lineBreak ++ (leaf .indent ++ ((first.print ++ more.print) ++ leaf .dedent))).node
      .suite
  | .noBranches => empty
  | .branches condition body more =>
    (word .elifWord ++ (condition.tight ++ .block body.print)).node .elifClause ++ more.print
  | .noOtherwise => empty
  | .otherwise body => (word .elseWord ++ .block body.print).node .elseClause
  | .noHandlers => empty
  | .handlers caught body more =>
    (word .exceptWord ++ (.caught caught ++ .block body.print)).node .exceptClause ++ more.print
  | .noCleanup => empty
  | .cleanup body => (word .finallyWord ++ .block body.print).node .finallyClause

open Print in
/-- The lines of a piece that stands at a width. A block stands at the width of its statement. -/
def lines {segment : Segment} (width : Nat) : Code segment → List Line
  | .simple content => [style.line width content.print]
  | .function decorators label parameters value body =>
    decorators.map (fun value => style.line width (mark .at ++ value.tight)) ++
      style.head width (word .defWord ++ (.name label ++ (.parameters parameters ++ .result value))) ::
      body.lines width
  | .classDefinition decorators label arguments body =>
    decorators.map (fun value => style.line width (mark .at ++ value.tight)) ++
      style.head width (word .classWord ++ (.name label ++ .bases arguments)) :: body.lines width
  | .choice condition body others final =>
    style.head width (word .ifWord ++ condition.tight) ::
      (body.lines width ++ (others.lines width ++ final.lines width))
  | .repeated condition body final =>
    style.head width (word .whileWord ++ condition.tight) ::
      (body.lines width ++ final.lines width)
  | .each targets iterable body final =>
    style.head width (word .forWord ++ (targets.print ++ (word .inWord ++ iterable.loose))) ::
      (body.lines width ++ final.lines width)
  | .entering first more body =>
    style.head width (word .withWord ++ items ((first :: more).map Entered.print)) ::
      body.lines width
  | .attempt body caught handler others final finish =>
    style.head width (word .tryWord) :: (body.lines width ++
      (style.head width (word .exceptWord ++ .caught caught) :: (handler.lines width ++
        (others.lines width ++ (final.lines width ++ finish.lines width)))))
  | .assured body finish =>
    style.head width (word .tryWord) ::
      (body.lines width ++ (style.head width (word .finallyWord) :: finish.lines width))
  | .noStatements => []
  | .statements first more => first.lines width ++ more.lines width
  | .block extra first more =>
    first.lines (width + extra + 1) ++ more.lines (width + extra + 1)
  | .noBranches => []
  | .branches condition body more =>
    style.head width (word .elifWord ++ condition.tight) :: (body.lines width ++ more.lines width)
  | .noOtherwise => []
  | .otherwise body => style.head width (word .elseWord) :: body.lines width
  | .noHandlers => []
  | .handlers caught body more =>
    style.head width (word .exceptWord ++ .caught caught) :: (body.lines width ++ more.lines width)
  | .noCleanup => []
  | .cleanup body => style.head width (word .finallyWord) :: body.lines width

end Code

end Syntax

end QuantumScript
