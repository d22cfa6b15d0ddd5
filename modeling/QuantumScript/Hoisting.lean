import QuantumScript.Diagnostic
import QuantumScript.Imports
/-!
# Hoisting

Before a script is walked, what its top level declares is bound, so that uses that stand above a
declaration can be resolved. Hints are checked when all is bound, since a class may be named above
its declaration.
-/

namespace QuantumScript

open Text (LineIndex)

namespace SymbolTable

/-- Binds the targets that are plain names. -/
def defineNames (table : SymbolTable) (type : SymbolType) (line : Nat) :
    List Ast.Expr → SymbolTable
  | [] => table
  | target :: rest =>
    match target.plainName? with
    | some name => (table.define ⟨name, type, line⟩).defineNames type line rest
    | none => table.defineNames type line rest

/-- The type of the targets of an expression statement, if it binds any. A hint that names a type
decides; else the value does if it is constant. -/
def hoistedType? (table : SymbolTable) (assigns : Bool) (hint : Option Ast.Holder)
    (value : Option Ast.Expr) : Option SymbolType :=
  match hint.bind Ast.Holder.typeName? with
  | some name => table.resolveType? name
  | none => if assigns then some ((value.bind Ast.Expr.constantType?).getD .any) else none

/-- The class of a definition with the members that it inherits from bases that are known. -/
def hoistedClass? (table : SymbolTable) (name : Option Ast.Name) (bases : Option Ast.Arguments)
    (body : Option Ast.Suite) : Option ClassType :=
  (Ast.classType? name body).map fun type =>
    type.inherit ((Ast.basesOf bases).filterMap fun base =>
      (base.value.bind Ast.Expr.typeName?).bind table.resolveType?)

/-- Binds what a statement at the top level declares. -/
def hoist (index : LineIndex) (table : SymbolTable) (statement : Ast.Statement) : SymbolTable :=
  let line := index.firstLine statement.extent
  match statement with
  | .classDefinition _ _ name bases body =>
    match table.hoistedClass? name bases body with
    | some type => table.define ⟨type.name, .classType type, line⟩
    | none => table
  | .function _ _ name parameters returns _ =>
    match Ast.signature? false name parameters returns with
    | some signature => table.define ⟨signature.name, .function signature, line⟩
    | none => table
  | .expressionStatement _ exprs assigns _ hint =>
    match table.hoistedType? assigns hint exprs.getLast? with
    | some type => table.defineNames type line (if assigns then exprs.dropLast else exprs)
    | none => table
  | _ => table.defineImports line statement

end SymbolTable

/-- The hints of a statement at the top level. -/
def Ast.Statement.hints (index : LineIndex) : Ast.Statement → List Hint
  | .classDefinition _ _ name _ body => classHints index name body
  | .function _ _ name parameters returns _ => signatureHints index false name parameters returns
  | .expressionStatement _ _ _ _ hint => (hint.bind (Holder.hint? index)).toList
  | _ => []

namespace Hoisting

/-- Binds what the top level of a script declares. -/
def run (index : LineIndex) (script : Ast.Script) (table : SymbolTable) : SymbolTable :=
  script.statements.foldl (SymbolTable.hoist index) table

/-- The warning for a hint that names no type. -/
def hintProblem? (table : SymbolTable) (hint : Hint) : Option Diagnostic :=
  match table.resolveType? hint.typeName with
  | some _ => none
  | none => some (.ofFinding (.unknownType hint.typeName) hint.site)

/-- The warnings for the hints of the top level, looked up in the table that hoisting made. -/
def warnings (index : LineIndex) (script : Ast.Script) (table : SymbolTable) : List Diagnostic :=
  (script.statements.flatMap (Ast.Statement.hints index)).filterMap (hintProblem? table)

end Hoisting

end QuantumScript
