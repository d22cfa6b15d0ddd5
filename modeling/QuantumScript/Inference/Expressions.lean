import QuantumScript.Inference.State
/-!
# Inference over expressions

Each expression is walked once, from left to right. On the way the uses in it are resolved and its
calls are checked, and its type comes out if it can be told.
-/

namespace QuantumScript

namespace Inference

open Text (LineIndex)

/-- The type of the target of a loop. Only a plain name gets the type of the elements; counting
makes whole numbers. -/
def loopType (table : SymbolTable) (target : Ast.Expr) (iterable : Option Ast.Expr)
    (iterated : Option SymbolType) : SymbolType :=
  match target with
  | .name _ =>
    if iterable.any Ast.Expr.isRangeCall then .primitive .int
    else (iterated.bind table.elementType?).getD .any
  | _ => .any

/-- Binds the target of a loop over a value of the given type. -/
def defineLoopTarget (line : Nat) (target iterable : Option Ast.Expr)
    (iterated : Option SymbolType) : Inference Unit := do
  match target with
  | none => pure ()
  | some target => defineTarget target (loopType (← table) target iterable iterated) line

mutual

/-- Walks an expression on a line. -/
def expr (index : LineIndex) (line : Nat) (tracked : Bool) :
    Ast.Expr → Inference (Option SymbolType)
  | .name part => do return (← name index tracked part).bind Value.type
  | .literal _ tokens => return Ast.Expr.literalType? tokens
  | .chain _ none _ => return none
  | .chain _ (some (.name part)) trailers => do
    match ← name index tracked part with
    | none => return none
    | some value => chain index line tracked value trailers
  | .chain _ (some atom) trailers => do
    let type ← expr index line false atom
    chain index line tracked (.ofType type) trailers
  | .binary _ operator left right => do
    let left ← optional index line left
    let right ← optional index line right
    match operator, left, right with
    | some operator, some left, some right => return SymbolType.binary? operator left right
    | _, _, _ => return none
  | .unary _ operator operand => do
    let operand ← optional index line operand
    return operator.bind fun operator => SymbolType.unary? operator operand
  | .parenthesized _ none => return none
  | .parenthesized _ (some inner) => expr index line tracked inner
  | .list _ items => do
    exprs index line items
    return some (.primitive .list)
  | .dictionary _ items => do
    exprs index line items
    return some (.primitive .dict)
  | .conditional _ parts => do
    exprs index line parts
    return none
  | .expressionList _ items => do
    exprs index line items
    return none
  | .lambda _ parameters body => do
    match parameters with
    | some ⟨_, items⟩ => defaults index line items
    | none => pure ()
    isolated "<lambda>" line do
      defineAll ((Ast.parametersOf parameters).filterMap Ast.Parameter.text) .any line
      let _ ← optional index line body
    return none
  | .yield _ value => do
    let _ ← optional index line value
    return none
  | .comprehension _ elements clauses bracket keyed => do
    isolated "<comprehension>" line do
      generators index line clauses
      exprs index line elements
    return SymbolType.comprehension? bracket keyed

/-- Walks an expression that may be missing. -/
def optional (index : LineIndex) (line : Nat) : Option Ast.Expr → Inference (Option SymbolType)
  | none => return none
  | some e => expr index line false e

/-- Walks expressions whose types do not matter. -/
def exprs (index : LineIndex) (line : Nat) : List Ast.Expr → Inference Unit
  | [] => pure ()
  | e :: rest => do
    let _ ← expr index line false e
    exprs index line rest

/-- Goes on from a value through the trailers that follow. -/
def chain (index : LineIndex) (line : Nat) (tracked : Bool) (value : Value) :
    List Ast.Trailer → Inference (Option SymbolType)
  | [] => return value.type
  | .attribute _ name :: rest =>
    match name.bind Ast.Name.ident with
    | none => chain index line tracked (.ofType none) rest
    | some leaf => do
      let site := index.leafSite leaf
      trackIf tracked fun tracker => tracker.access site
      let value ← access value.type site (rest.head?.any Ast.Trailer.isCall)
      chain index line tracked value rest
  | .arguments _ items :: rest => do
    let given ← arguments index line items
    trackIf tracked fun tracker => tracker.call given
    let type ← call value.callee given
    chain index line tracked (.ofType type) rest
  | .subscripts _ items :: rest => do
    subscripts index line items
    trackIf tracked AssignmentTracker.indexed
    let table ← table
    chain index line tracked (.ofType (value.type.bind table.elementType?)) rest

def arguments (index : LineIndex) (line : Nat) :
    List Ast.Argument → Inference (List CallArgument)
  | [] => return []
  | ⟨extent, keyword, unpacked, value⟩ :: rest => do
    let type ← optional index line value
    let argument := ⟨type, index.partSite extent, keyword.bind Ast.Name.text, unpacked⟩
    return argument :: (← arguments index line rest)

def subscripts (index : LineIndex) (line : Nat) : List Ast.Subscript → Inference Unit
  | [] => pure ()
  | ⟨_, parts⟩ :: rest => do
    exprs index line parts
    subscripts index line rest

/-- Walks the default values of parameters. -/
def defaults (index : LineIndex) (line : Nat) : List Ast.Parameter → Inference Unit
  | [] => pure ()
  | ⟨_, _, _, value, _⟩ :: rest => do
    match value with
    | some ⟨_, value⟩ => let _ ← optional index line value
    | none => pure ()
    defaults index line rest

/-- Walks the clauses of a comprehension, binding the targets as it goes. -/
def generators (index : LineIndex) (line : Nat) : List Ast.Clause → Inference Unit
  | [] => pure ()
  | .forClause _ target iterable :: rest => do
    let iterated ← optional index line iterable
    defineLoopTarget line target iterable iterated
    generators index line rest
  | .ifClause _ condition :: rest => do
    let _ ← optional index line condition
    generators index line rest

end

/-- The types of expressions that may be missing, those that are not known left out. -/
def types (index : LineIndex) (line : Nat) :
    List (Option Ast.Expr) → Inference (List SymbolType)
  | [] => return []
  | e :: rest => do
    let type ← optional index line e
    return type.toList ++ (← types index line rest)

end Inference

end QuantumScript
