import QuantumScript.Syntax.Kind
import QuantumScript.Text.Span
/-!
# Abstract syntax

The parts of a script by their meaning. A part that the source lacks is absent, so that whatever was
read has its abstract syntax. Each part knows the span that it was read from.
-/

namespace QuantumScript

namespace Ast

open Syntax

/-- A token of the source. -/
structure Leaf where
  kind : TokenKind
  text : String
  span : Span
  deriving DecidableEq, Repr

/-- Where a part was read from. -/
structure Extent where
  /-- All of the part, blanks and line ends at its end included. -/
  span : Span
  /-- The first significant token. -/
  first : Option Leaf
  /-- End of the last significant token; end of the part if there is none. -/
  last : Nat
  deriving DecidableEq, Repr

/-- The span of the significant tokens, or of all if there are none. -/
def Extent.core (extent : Extent) : Span :=
  match extent.first with
  | none => extent.span
  | some leaf => ⟨leaf.span.start, extent.last⟩

structure Name where
  extent : Extent
  ident : Option Leaf
  deriving DecidableEq, Repr

def Name.text (name : Name) : Option String := name.ident.map Leaf.text

structure DottedName where
  extent : Extent
  names : List Name
  deriving DecidableEq, Repr

/-- The components with points between. -/
def DottedName.text (dotted : DottedName) : String :=
  ".".intercalate (dotted.names.filterMap Name.text)

structure ImportAlias where
  extent : Extent
  path : Option DottedName
  names : List Name
  renamed : Bool
  deriving DecidableEq, Repr

namespace ImportAlias

/-- The name after `as`. -/
def alias? (item : ImportAlias) : Option Name :=
  if item.renamed then item.names.getLast? else none

/-- The name that is bound: the alias if there is one, else the first component of a path or the
imported name. -/
def boundName (item : ImportAlias) : Option String :=
  match item.alias? with
  | some name => name.text
  | none =>
    match item.path with
    | some path => path.names.head?.bind Name.text
    | none => item.names.head?.bind Name.text

/-- The name that is looked up in the imported module. -/
def importedName (item : ImportAlias) : Option String :=
  match item.path with
  | some path => some path.text
  | none => item.names.head?.bind Name.text

end ImportAlias

mutual

/-- A part that holds one expression: a type hint, a default value, a decorator. -/
structure Holder where
  extent : Extent
  value : Option Expr

structure Parameter where
  extent : Extent
  name : Option Name
  hint : Option Holder
  default : Option Holder
  variadic : Bool

structure Parameters where
  extent : Extent
  items : List Parameter

structure Argument where
  extent : Extent
  keyword : Option Name
  unpacked : Bool
  value : Option Expr

/-- An index, or the bounds and the step of a slice. -/
structure Subscript where
  extent : Extent
  parts : List Expr

inductive Clause
  | forClause (extent : Extent) (target iterable : Option Expr)
  | ifClause (extent : Extent) (condition : Option Expr)

/-- What may follow an atom. -/
inductive Trailer
  | arguments (extent : Extent) (items : List Argument)
  | subscripts (extent : Extent) (items : List Subscript)
  | attribute (extent : Extent) (name : Option Name)

inductive Expr
  | name (name : Name)
  /-- Tokens of a literal; several of them only for strings next to each other. -/
  | literal (extent : Extent) (tokens : List Leaf)
  | chain (extent : Extent) (atom : Option Expr) (trailers : List Trailer)
  | binary (extent : Extent) (operator : Option TokenKind) (left right : Option Expr)
  | unary (extent : Extent) (operator : Option TokenKind) (operand : Option Expr)
  | parenthesized (extent : Extent) (inner : Option Expr)
  | list (extent : Extent) (items : List Expr)
  /-- Keys and values, or the elements of a set. -/
  | dictionary (extent : Extent) (items : List Expr)
  /-- The value, the condition, the other value. -/
  | conditional (extent : Extent) (parts : List Expr)
  | expressionList (extent : Extent) (items : List Expr)
  | lambda (extent : Extent) (parameters : Option Parameters) (body : Option Expr)
  | yield (extent : Extent) (value : Option Expr)
  /-- `keyed` tells a dictionary from a set. -/
  | comprehension (extent : Extent) (elements : List Expr) (clauses : List Clause)
      (bracket : Option TokenKind) (keyed : Bool)

end

namespace Expr

def extent : Expr → Extent
  | .name n => n.extent
  | .literal extent _ | .chain extent _ _ | .binary extent _ _ _ | .unary extent _ _
  | .parenthesized extent _ | .list extent _ | .dictionary extent _ | .conditional extent _
  | .expressionList extent _ | .lambda extent _ _ | .yield extent _
  | .comprehension extent _ _ _ _ => extent

def kind : Expr → NodeKind
  | .name _ => .name
  | .literal _ _ => .literal
  | .chain _ _ _ => .chain
  | .binary _ _ _ _ => .binary
  | .unary _ _ _ => .unary
  | .parenthesized _ _ => .parenthesized
  | .list _ _ => .list
  | .dictionary _ _ => .dictionary
  | .conditional _ _ => .conditional
  | .expressionList _ _ => .expressionList
  | .lambda _ _ _ => .lambda
  | .yield _ _ => .yield
  | .comprehension _ _ _ _ _ => .comprehension

end Expr

namespace Trailer

def extent : Trailer → Extent
  | .arguments extent _ | .subscripts extent _ | .attribute extent _ => extent

def kind : Trailer → NodeKind
  | .arguments _ _ => .arguments
  | .subscripts _ _ => .subscripts
  | .attribute _ _ => .attribute

end Trailer

namespace Clause

def extent : Clause → Extent
  | .forClause extent _ _ | .ifClause extent _ => extent

def kind : Clause → NodeKind
  | .forClause _ _ _ => .forClause
  | .ifClause _ _ => .ifClause

end Clause

/-- The arguments of a call or the bases of a class. -/
structure Arguments where
  extent : Extent
  items : List Argument

structure WithItem where
  extent : Extent
  value : Option Expr
  target : Option Expr

mutual

structure Suite where
  extent : Extent
  statements : List Statement

/-- An `elif` clause. -/
structure Branch where
  extent : Extent
  condition : Option Expr
  body : Option Suite

/-- An `except` clause. -/
structure Handler where
  extent : Extent
  caught : Option Expr
  name : Option Name
  body : Option Suite

/-- An `else` or `finally` clause. -/
structure Block where
  extent : Extent
  body : Option Suite

inductive Statement
  /-- The targets of an assignment come before its value. -/
  | expressionStatement (extent : Extent) (exprs : List Expr) (assigns augments : Bool)
      (hint : Option Holder)
  | passStatement (extent : Extent)
  | breakStatement (extent : Extent)
  | continueStatement (extent : Extent)
  | returnStatement (extent : Extent) (value : Option Expr)
  | importStatement (extent : Extent) (aliases : List ImportAlias)
  | fromImportStatement (extent : Extent) (path : Option DottedName)
      (aliases : List ImportAlias) (all : Bool)
  | function (extent : Extent) (decorators : List Holder) (name : Option Name)
      (parameters : Option Parameters) (returns : Option Holder) (body : Option Suite)
  | classDefinition (extent : Extent) (decorators : List Holder) (name : Option Name)
      (bases : Option Arguments) (body : Option Suite)
  | ifStatement (extent : Extent) (condition : Option Expr) (body : Option Suite)
      (branches : List Branch) (otherwise : Option Block)
  | whileStatement (extent : Extent) (condition : Option Expr) (body : Option Suite)
      (otherwise : Option Block)
  | forStatement (extent : Extent) (target iterable : Option Expr) (body : Option Suite)
      (otherwise : Option Block)
  | withStatement (extent : Extent) (items : List WithItem) (body : Option Suite)
  | tryStatement (extent : Extent) (body : Option Suite) (handlers : List Handler)
      (otherwise : Option Block) (cleanup : Option Block)
  | raiseStatement (extent : Extent) (exprs : List Expr)
  | assertStatement (extent : Extent) (exprs : List Expr)
  | delStatement (extent : Extent) (target : Option Expr)
  | globalStatement (extent : Extent) (names : List Name) (nonlocal : Bool)

end

namespace Statement

def extent : Statement → Extent
  | .expressionStatement extent _ _ _ _ | .passStatement extent | .breakStatement extent
  | .continueStatement extent | .returnStatement extent _ | .importStatement extent _
  | .fromImportStatement extent _ _ _ | .function extent _ _ _ _ _
  | .classDefinition extent _ _ _ _ | .ifStatement extent _ _ _ _
  | .whileStatement extent _ _ _ | .forStatement extent _ _ _ _ | .withStatement extent _ _
  | .tryStatement extent _ _ _ _ | .raiseStatement extent _ | .assertStatement extent _
  | .delStatement extent _ | .globalStatement extent _ _ => extent

def kind : Statement → NodeKind
  | .expressionStatement _ _ _ _ _ => .expressionStatement
  | .passStatement _ => .passStatement
  | .breakStatement _ => .breakStatement
  | .continueStatement _ => .continueStatement
  | .returnStatement _ _ => .returnStatement
  | .importStatement _ _ => .importStatement
  | .fromImportStatement _ _ _ _ => .fromImportStatement
  | .function _ _ _ _ _ _ => .function
  | .classDefinition _ _ _ _ _ => .classDefinition
  | .ifStatement _ _ _ _ _ => .ifStatement
  | .whileStatement _ _ _ _ => .whileStatement
  | .forStatement _ _ _ _ _ => .forStatement
  | .withStatement _ _ _ => .withStatement
  | .tryStatement _ _ _ _ _ => .tryStatement
  | .raiseStatement _ _ => .raiseStatement
  | .assertStatement _ _ => .assertStatement
  | .delStatement _ _ => .delStatement
  | .globalStatement _ _ _ => .globalStatement

end Statement

/-- A whole script. -/
structure Script where
  extent : Extent
  statements : List Statement

end Ast

end QuantumScript
