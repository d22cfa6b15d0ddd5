import QuantumScript.Folded
import QuantumScript.Number.Literal
import QuantumScript.Source
import QuantumScript.Text.StringBody
/-!
# Folding statements

Expression statements at the top level of a script are folded. A shape that has no term is left out,
so one statement that does not fold costs only itself.
-/

namespace QuantumScript

namespace Folding

open Text (LineIndex)

/-- No term for nothing, and a single term for itself. -/
def collapse : List Term → Option Term
  | [] => none
  | [term] => some term
  | terms => some (.expression terms)

def reference (index : LineIndex) (leaf : Ast.Leaf) : Term :=
  .reference leaf.text (index.position leaf.span)

/-- Strings next to each other are put together. -/
def stringValue (tokens : List Ast.Leaf) : String :=
  let strings := tokens.filter fun leaf => leaf.kind = .quoted
  String.ofList (strings.flatMap fun leaf => Text.stringBody leaf.text.toList)

def literal (index : LineIndex) (extent : Ast.Extent) (tokens : List Ast.Leaf) : Option Term :=
  match tokens with
  | [] => none
  | leaf :: _ =>
    let position := index.position leaf.span
    match leaf.kind with
    | .integer => (Number.integer? leaf.text.toList).map fun value => .integer value position
    | .float => (Number.float? leaf.text.toList).map fun value => .float value position
    | .quoted => some (.text (stringValue tokens) (index.position extent.core))
    | .keyword .trueWord => some (.boolean true position)
    | .keyword .falseWord => some (.boolean false position)
    | _ => none

/-- A sign before a folded term. Only numbers can be negated. -/
def signed (operator : Option Syntax.TokenKind) (term : Term) (position : Position) :
    Option Term :=
  match operator with
  | some (.symbol .minus) =>
    match term with
    | .integer value _ => some (.integer (-value) position)
    | .float value _ => some (.float value.negate position)
    | _ => none
  | some (.symbol .plus) => some term
  | _ => none

/-- The first term that is an integer by itself. -/
def firstInteger (terms : List Term) : Option Int :=
  terms.findSome? fun
    | .integer value _ => some value
    | _ => none

/-- A call on the last of the terms, given last one first. Only a name becomes a method. -/
def applyCall (arguments : List Term) : List Term → List Term
  | .reference name position :: rest => .methodCall name arguments position :: rest
  | terms => terms

/-- A subscript on the last of the terms, given last one first. Only a literal index counts. -/
def applyIndex (indices : List Term) : List Term → List Term
  | .reference name position :: rest =>
    .element name ((firstInteger indices).getD 0) position :: rest
  | terms => terms

mutual

def expr (index : LineIndex) : Ast.Expr → Option Term
  | .name name => name.ident.map (reference index)
  | .literal extent tokens => literal index extent tokens
  | .dictionary extent _ => some (.dictionary (index.position extent.core))
  | .chain _ atom trailers =>
    match atom with
    | none => none
    | some atom => collapse (chain index (expr index atom).toList trailers).reverse
  | .parenthesized _ inner => optional index inner
  | .unary extent operator operand =>
    (optional index operand).bind fun term => signed operator term (index.position extent.core)
  | .binary _ _ left right => collapse (operands index left ++ operands index right)
  | .list _ items => some (.expression (exprs index items))
  | .expressionList _ items => some (.expression (exprs index items))
  | .conditional _ _ | .lambda _ _ _ | .yield _ _ | .comprehension _ _ _ _ _ => none

def optional (index : LineIndex) : Option Ast.Expr → Option Term
  | none => none
  | some e => expr index e

/-- The terms of the expressions that have one. -/
def exprs (index : LineIndex) : List Ast.Expr → List Term
  | [] => []
  | e :: es => (expr index e).toList ++ exprs index es

/-- The operands of an operand: operators within it do not group. -/
def operands (index : LineIndex) : Option Ast.Expr → List Term
  | none => []
  | some (.binary _ _ left right) => operands index left ++ operands index right
  | some e => (expr index e).toList

/-- Goes on from folded terms, last one first, through the trailers that follow. -/
def chain (index : LineIndex) (terms : List Term) : List Ast.Trailer → List Term
  | [] => terms
  | .attribute _ name :: rest =>
    let accessed := (name.bind Ast.Name.ident).toList.map (reference index)
    chain index (accessed ++ terms) rest
  | .arguments _ items :: rest =>
    chain index (applyCall (arguments index items) terms) rest
  | .subscripts _ items :: rest =>
    chain index (applyIndex (subscripts index items) terms) rest

def arguments (index : LineIndex) : List Ast.Argument → List Term
  | [] => []
  | ⟨_, _, _, value⟩ :: rest => (optional index value).toList ++ arguments index rest

def subscripts (index : LineIndex) : List Ast.Subscript → List Term
  | [] => []
  | ⟨_, parts⟩ :: rest => exprs index parts ++ subscripts index rest

end

/-- The expressions of an assignment before its value become targets, from the right. All of them
must fold; a value that does not is left empty. -/
def assignment (index : LineIndex) (targets : List Ast.Expr) (value : Term) : Option Term :=
  match targets with
  | [] => some value
  | target :: rest =>
    match expr index target, assignment index rest value with
    | some target, some value => some (.assignment target value)
    | _, _ => none

def statement (index : LineIndex) : Ast.Statement → Option FoldedStatement
  | .expressionStatement _ exprs _ augments _ =>
    match augments, exprs.getLast? with
    | false, some value =>
      let targets := exprs.dropLast
      let folded := expr index value
      let folded := if targets.isEmpty then folded else some (folded.getD (.expression []))
      (folded.bind (assignment index targets)).map fun term => ⟨term⟩
    | _, _ => none
  | _ => none

/-- Folds the statements at the top level of a script. -/
def script (index : LineIndex) (script : Ast.Script) : List FoldedStatement :=
  script.statements.filterMap (statement index)

/-- Folds the script that a text is read as. -/
def ofText (text : List Char) : List FoldedStatement :=
  let source := Source.ofText none text
  script source.index source.script

end Folding

end QuantumScript
