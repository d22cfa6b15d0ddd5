import QuantumScript.Inference.Expressions
/-!
# Inference over statements

Statements are walked in the order of the source. A body of a function or class has a scope of its
own; the other blocks belong to the scope that they stand in. The targets of an assignment are bound
to the type of the value.
-/

namespace QuantumScript

namespace Inference

open Text (LineIndex)

/-- The type that a hint names, if it is known. -/
def hinted (hint : Option Ast.Holder) : Inference (Option SymbolType) := do
  let table ← table
  return (hint.bind Ast.Holder.typeName?).bind table.resolveType?

/-- Walks a target of an assignment. A plain name is bound when the statement ends. The names in a
list of targets are bound at once, and the first of them marks that it is not a plain name. Anything
else is a use of the names in it. -/
def target (index : LineIndex) (line : Nat) (target : Ast.Expr) : Inference Unit := do
  match target with
  | .name _ => pure ()
  | .expressionList _ _ | .list _ _ | .parenthesized _ _ =>
    match target.boundLeaves.head? with
    | some leaf => track fun tracker => tracker.variableAt (index.leafSite leaf)
    | none => pure ()
    defineTarget target .any line
  | _ => let _ ← expr index line true target

/-- Walks the targets of an assignment, tracking each. -/
def targets (index : LineIndex) (line : Nat) : List Ast.Expr → Inference Unit
  | [] => pure ()
  | first :: rest => do
    track fun tracker => tracker.begin (index.firstSite first.extent)
    target index line first
    track AssignmentTracker.assign
    targets index line rest

/-- The type of an assigned value: that of the hint, else that of the chain of accesses which the
value is, else that of the walk. -/
def assignedType (table : SymbolTable) (hint : Option SymbolType) (value : Side)
    (walked : Option SymbolType) : SymbolType :=
  ((hint.or (value.chain.bind (AccessChain.resolve? table))).or walked).getD .any

/-- Walks an assignment and binds its plain names. -/
def assignment (index : LineIndex) (line : Nat) (hint : Option SymbolType)
    (left : List Ast.Expr) (value : Ast.Expr) : Inference Unit := do
  targets index line left
  track fun tracker => tracker.begin (index.firstSite value.extent)
  let walked ← expr index line true value
  match ← finish with
  | none => pure ()
  | some finished =>
    let type := assignedType (← table) hint finished.value walked
    defineAll (finished.targets.filterMap Side.plainName?) type line

/-- Walks an expression statement. One with an operator binds nothing, and one that has only a known
hint declares its names. -/
def expressions (index : LineIndex) (line : Nat) (items : List Ast.Expr)
    (assigns augments : Bool) (hint : Option Ast.Holder) : Inference Unit := do
  if augments then exprs index line items
  else
    let hint ← hinted hint
    if assigns then
      match items.getLast? with
      | some value => assignment index line hint items.dropLast value
      | none => pure ()
    else
      match hint with
      | some type => items.forM fun item => defineTarget item type line
      | none => exprs index line items

/-- Walks the expressions of decorators. -/
def decorators (index : LineIndex) (line : Nat) (items : List Ast.Holder) : Inference Unit :=
  exprs index line (items.filterMap Ast.Holder.value)

/-- Binds the parameters of a function in its scope. The first parameter of a method is an instance
of the class. -/
def parameters (line : Nat) (owner : Option ClassType) : List Ast.Parameter → Inference Unit
  | [] => pure ()
  | parameter :: rest => do
    match parameter.text with
    | some name =>
      match owner with
      | some type =>
        if parameter.variadic then define name ((← hinted parameter.hint).getD .any) line
        else define name (.classType type) line
      | none => define name ((← hinted parameter.hint).getD .any) line
    | none => pure ()
    parameters line none rest

/-- Binds the name of an exception handler. -/
def caughtName (line : Nat) (name : Option Ast.Name) (caught : Option SymbolType) :
    Inference Unit :=
  match name.bind Ast.Name.text with
  | some name => define name ((caught.bind SymbolType.class?).elim .any .classType) line
  | none => pure ()

/-- Walks the items of a `with` statement. What they are bound to is not known. -/
def withItems (index : LineIndex) (line : Nat) : List Ast.WithItem → Inference Unit
  | [] => pure ()
  | item :: rest => do
    let _ ← optional index line item.value
    match item.target with
    | some target => defineTarget target .any line
    | none => pure ()
    withItems index line rest

mutual

/-- Walks a statement. The owner is the class in whose body it stands, if it is one. -/
def statement (index : LineIndex) (owner : Option ClassType) : Ast.Statement → Inference Unit
  | .expressionStatement extent items assigns augments hint => do
    let line := index.firstLine extent
    enter line
    expressions index line items assigns augments hint
  | .passStatement extent | .breakStatement extent | .continueStatement extent
  | .globalStatement extent _ _ => enter (index.firstLine extent)
  | .returnStatement extent value => do
    let line := index.firstLine extent
    enter line
    let _ ← optional index line value
  | .importStatement extent aliases => do
    let line := index.firstLine extent
    enter line
    modifyTable fun table => table.defineImports line (.importStatement extent aliases)
  | .fromImportStatement extent path aliases all => do
    let line := index.firstLine extent
    enter line
    modifyTable fun table => table.defineImports line (.fromImportStatement extent path aliases all)
  | .function extent decorated name items returns body => do
    let line := index.firstLine extent
    enter line
    decorators index line decorated
    match Ast.signature? owner.isSome name items returns with
    | none => pure ()
    | some signature =>
      defaults index line (Ast.parametersOf items)
      define signature.name (.function signature) line
      within signature.name line (index.lastLine extent) do
        parameters line owner (Ast.parametersOf items)
        suite index none body
  | .classDefinition extent decorated name bases body => do
    let line := index.firstLine extent
    enter line
    decorators index line decorated
    let bases ← types index line ((Ast.basesOf bases).map Ast.Argument.value)
    match Ast.classType? name body with
    | none => pure ()
    | some declared =>
      let type := declared.inherit bases
      define type.name (.classType type) line
      within type.name line (index.lastLine extent) do
        suite index (some type) body
  | .ifStatement extent condition body others otherwise => do
    let line := index.firstLine extent
    enter line
    let _ ← optional index line condition
    suite index owner body
    branches index line owner others
    block index owner otherwise
  | .whileStatement extent condition body otherwise => do
    let line := index.firstLine extent
    enter line
    let _ ← optional index line condition
    suite index owner body
    block index owner otherwise
  | .forStatement extent target iterable body otherwise => do
    let line := index.firstLine extent
    enter line
    let iterated ← optional index line iterable
    defineLoopTarget line target iterable iterated
    suite index owner body
    block index owner otherwise
  | .withStatement extent items body => do
    let line := index.firstLine extent
    enter line
    withItems index line items
    suite index owner body
  | .tryStatement extent body caught otherwise cleanup => do
    enter (index.firstLine extent)
    suite index owner body
    handlers index owner caught
    block index owner otherwise
    block index owner cleanup
  | .raiseStatement extent items | .assertStatement extent items => do
    let line := index.firstLine extent
    enter line
    exprs index line items
  | .delStatement extent target => do
    let line := index.firstLine extent
    enter line
    let _ ← optional index line target

def statements (index : LineIndex) (owner : Option ClassType) :
    List Ast.Statement → Inference Unit
  | [] => pure ()
  | first :: rest => do
    statement index owner first
    statements index owner rest

def suite (index : LineIndex) (owner : Option ClassType) : Option Ast.Suite → Inference Unit
  | none => pure ()
  | some ⟨_, items⟩ => statements index owner items

/-- The conditions of `elif` clauses belong to the line of their statement. -/
def branches (index : LineIndex) (line : Nat) (owner : Option ClassType) :
    List Ast.Branch → Inference Unit
  | [] => pure ()
  | ⟨_, condition, body⟩ :: rest => do
    let _ ← optional index line condition
    suite index owner body
    branches index line owner rest

def handlers (index : LineIndex) (owner : Option ClassType) : List Ast.Handler → Inference Unit
  | [] => pure ()
  | ⟨extent, caught, name, body⟩ :: rest => do
    let line := index.firstLine extent
    enter line
    let type ← optional index line caught
    caughtName line name type
    suite index owner body
    handlers index owner rest

def block (index : LineIndex) (owner : Option ClassType) : Option Ast.Block → Inference Unit
  | none => pure ()
  | some ⟨_, body⟩ => suite index owner body

end

/-- Walks a script, and moves to its end. -/
def script (index : LineIndex) (script : Ast.Script) : Inference Unit := do
  statements index none script.statements
  modifyTable fun table => table.reach (index.lastLine script.extent)

/-- What the walk of a script finds, from a table where its top level is bound. -/
def State.ofScript (index : LineIndex) (source : Ast.Script) (table : SymbolTable) : State :=
  ((script index source).run (.start table)).2

end Inference

end QuantumScript
