import QuantumScript.Syntax.Script
/-!
# Rules of the grammar

The productions of the grammar and the small scripts that they share.
-/

namespace QuantumScript

namespace Syntax

/-- The productions that others call. Those of expressions go from loose to tight binding. -/
inductive Rule
  | expressionList | targetList | expression | lambda | yield
  | disjunction | conjunction | negation | comparison
  | bitOr | bitXor | bitAnd | shift | sum | product | factor | power | chain | atom
  | parenthesized | list | dictionary | clauses
  | arguments | argument | subscripts | subscript | attribute
  | statement | simpleLine | simpleStatement
  | function | classDefinition | decorated | parameters | parameter
  | ifStatement | whileStatement | forStatement | withStatement | tryStatement
  | elseClause | suite
  deriving DecidableEq, Repr

abbrev Production := Script Rule

namespace Production

open Script

/-- Runs scripts in turn; the last one gives the answer. -/
def steps : List Production → Production
  | [] => .answer true
  | [script] => script
  | script :: scripts => .seq script (steps scripts)

/-- The next token has the given kind. -/
def next (kind : TokenKind) : Production := .ask (.at [kind])

/-- Takes the next token if it has the given kind. -/
def eat (kind : TokenKind) : Production := .cond (next kind) (.bump kind) (.answer false)

/-- Takes the next token if it has the given kind, else books that it is missing. -/
def expect (kind : TokenKind) : Production :=
  .cond (next kind) (.bump kind) (.report (.missing kind))

/-- Runs a script if the next token has one of the given kinds. -/
def whenAt (kinds : List TokenKind) (script : Production) : Production :=
  .cond (.ask (.at kinds)) script (.answer false)

/-- Repeats a script as long as the next token has one of the given kinds. -/
def whileAt (kinds : List TokenKind) (script : Production) : Production :=
  .loop (whenAt kinds (.seq script (.answer true)))

/-- Makes an error node of the next token. -/
def spoil (problem : Problem) : Production :=
  .node (.always .error) (.seq (.report problem) .advance)

/-- Books a problem, and passes over the next token unless it is one at which reading can go on
or ends the line. -/
def recover (problem : Problem) (stops : List TokenKind) : Production :=
  .cond (.ask (.at (stops.append [.newline, .endOfInput]))) (.report problem) (spoil problem)

/-- A name; if there is none, reading goes on at `stops`. -/
def nameOr (stops : List TokenKind) : Production :=
  .cond (next .name) (.node (.always .name) (.bump .name)) (recover .missingName stops)

def name : Production := nameOr []

/-- One or two stars, or none. -/
def stars : Production :=
  .cond (eat (.symbol .star)) (.answer true) (eat (.symbol .doubleStar))

/-- Items between brackets, with commas between them and perhaps after the last one. A missing
comma is booked if another item can start. Reading stops at an item that answers no. -/
def bracketed (opening closing : TokenKind) (first : List TokenKind) (item : Production) :
    Production :=
  steps
    [ .bump opening,
      .loop <| .cond (.ask (.at [closing, .endOfInput])) (.answer false) <|
        .cond item
          (.cond (next (.symbol .comma)) (.bump (.symbol .comma)) <|
            whenAt first (.seq (.report (.missingSeparator (.symbol .comma))) (.answer true)))
          (.answer false),
      expect closing ]

end Production

end Syntax

end QuantumScript
