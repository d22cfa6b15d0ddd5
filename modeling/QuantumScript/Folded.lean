import QuantumScript.Number.Binary64
import QuantumScript.Position
import QuantumScript.Text.Quoted
/-!
# Folded statements

A small tree of terms tells what a simple statement does, for readers that do not want to deal with
the syntax. Each leaf has the position that it was folded from.
-/

namespace QuantumScript

inductive Term
  /-- Chained assignments nest in the value. -/
  | assignment (target value : Term)
  /-- A chain of accesses, or operands. -/
  | expression (terms : List Term)
  | reference (name : String) (position : Position)
  | methodCall (name : String) (arguments : List Term) (position : Position)
  | element (name : String) (index : Int) (position : Position)
  | dictionary (position : Position)
  | integer (value : Int) (position : Position)
  | float (value : Binary64) (position : Position)
  | text (value : String) (position : Position)
  | boolean (value : Bool) (position : Position)

namespace Term

mutual

/-- The position of a leaf. Assignments and expressions are where their first term is. -/
def position? : Term → Option Position
  | .assignment target _ => position? target
  | .expression terms => firstPosition? terms
  | .reference _ position | .methodCall _ _ position | .element _ _ position
  | .dictionary position | .integer _ position | .float _ position | .text _ position
  | .boolean _ position => some position

def firstPosition? : List Term → Option Position
  | [] => none
  | term :: _ => position? term

end

/-- A name applied to texts between parentheses. -/
def form (name : String) (parts : List (List Char)) : List Char :=
  name.toList ++ '(' :: [',', ' '].intercalate parts ++ [')']

def listForm (parts : List (List Char)) : List Char :=
  '[' :: [',', ' '].intercalate parts ++ [']']

section

variable (quote : List Char → List Char)

mutual

/-- The term as text, without positions, its strings being quoted in the given way. -/
def writtenBy : Term → List Char
  | .assignment target value => form "Assignment" [writtenBy target, writtenBy value]
  | .expression terms => form "Expression" [listForm (writtenAllBy terms)]
  | .reference name _ => form "VariableReference" [name.toList]
  | .methodCall name arguments _ =>
    form "MethodReference" [name.toList, listForm (writtenAllBy arguments)]
  | .element name index _ => form "ArrayReference" [name.toList, (toString index).toList]
  | .dictionary _ => "Dictionary".toList
  | .integer value _ => form "Integer" [(toString value).toList]
  | .float value _ => form "Float" [value.written]
  | .text value _ => form "Text" [quote value.toList]
  | .boolean value _ => form "Boolean" [(if value then "true" else "false").toList]

def writtenAllBy : List Term → List (List Char)
  | [] => []
  | term :: terms => writtenBy term :: writtenAllBy terms

end

end

end Term

/-- A folded statement. -/
structure FoldedStatement where
  term : Term

def FoldedStatement.writtenBy (quote : List Char → List Char) (statement : FoldedStatement) : List Char :=
  Term.form "Statement" [statement.term.writtenBy quote]

def FoldedStatement.written (statement : FoldedStatement) : List Char :=
  statement.writtenBy Text.quote

end QuantumScript
