import QuantumScript.Declaration
import QuantumScript.SymbolTable
/-!
# Types of operators

The type of a value that an operator, a loop or a display makes of values of known types.
-/

namespace QuantumScript

namespace Primitive

def isNumber : Primitive → Bool
  | .int | .float | .complex => true
  | _ => false

/-- The wider of two types of numbers. -/
def widest (left right : Primitive) : Primitive :=
  if left = .complex || right = .complex then .complex
  else if left = .float || right = .float then .float
  else .int

end Primitive

/-- The operators whose value is a truth value. `not in` and `is not` go by their first word. -/
def Syntax.TokenKind.isComparison : Syntax.TokenKind → Bool
  | .symbol .equality | .symbol .inequality | .symbol .less | .symbol .greater
  | .symbol .lessEqual | .symbol .greaterEqual | .keyword .inWord | .keyword .notWord
  | .keyword .isWord => true
  | _ => false

namespace SymbolType

/-- The type of an operation that is not a comparison. A quotient of whole numbers need not be
whole. -/
def combine? (operator : Syntax.TokenKind) (left right : Primitive) : Option Primitive :=
  if left.isNumber && right.isNumber then
    if left = .int && right = .int && operator = .symbol .slash then some .float
    else some (left.widest right)
  else
    match left, right with
    | .str, .str => if operator = .symbol .plus then some .str else none
    | .list, .list => if operator = .symbol .plus then some .list else none
    | .bool, .bool =>
      if operator = .keyword .andWord || operator = .keyword .orWord then some .bool else none
    | _, _ => none

/-- The type of a value of a binary operator, if those of both operands are known. -/
def binary? (operator : Syntax.TokenKind) (left right : SymbolType) : Option SymbolType :=
  if operator.isComparison then some (.primitive .bool)
  else
    match left, right with
    | .primitive left, .primitive right => (combine? operator left right).map .primitive
    | _, _ => none

/-- The type of a value of a unary operator. -/
def unary? (operator : Syntax.TokenKind) (operand : Option SymbolType) : Option SymbolType :=
  if operator = .keyword .notWord then some (.primitive .bool) else operand

/-- The type of a comprehension: its bracket tells lists, and colons tell dictionaries from sets. -/
def comprehension? (bracket : Option Syntax.TokenKind) (keyed : Bool) : Option SymbolType :=
  match bracket with
  | some (.symbol .leftBracket) => some (.primitive .list)
  | some (.symbol .leftBrace) => if keyed then some (.primitive .dict) else none
  | _ => none

end SymbolType

/-- A call of the builtin that counts. -/
def Ast.Expr.isRangeCall : Ast.Expr → Bool
  | .chain _ (some (.name callee)) (first :: _) => callee.text = some "range" && first.isCall
  | _ => false

end QuantumScript
