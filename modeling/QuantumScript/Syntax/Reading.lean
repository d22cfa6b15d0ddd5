import QuantumScript.Syntax.Ast
import QuantumScript.Syntax.Grammar
/-!
# Reading trees

The abstract syntax is read from a tree in one pass: the parts of a node are read first, and the
node picks those that it has a place for.
-/

namespace QuantumScript

namespace Ast

open Syntax

/-- What a tree stands for. -/
inductive Part
  | leaf (leaf : Leaf)
  | expr (expr : Expr)
  | trailer (trailer : Trailer)
  | clause (clause : Clause)
  | argument (argument : Argument)
  | subscript (subscript : Subscript)
  | parameters (parameters : Parameters)
  | parameter (parameter : Parameter)
  /-- The kind tells hints, defaults, return types and decorators apart. -/
  | holder (kind : NodeKind) (holder : Holder)
  | dottedName (path : DottedName)
  | importAlias (item : ImportAlias)
  | withItem (item : WithItem)
  | suite (suite : Suite)
  | branch (branch : Branch)
  | handler (handler : Handler)
  /-- The kind tells `else` and `finally` apart. -/
  | block (kind : NodeKind) (block : Block)
  | statement (statement : Statement)
  | script (script : Script)
  | error (extent : Extent)

namespace Part

/-- Tokens that carry the layout or are not seen by the grammar. -/
def isLayout (kind : TokenKind) : Bool :=
  kind.isTrivia || kind = .newline || kind = .indent || kind = .dedent

def leafExtent (leaf : Leaf) : Extent :=
  ⟨leaf.span, if isLayout leaf.kind then none else some leaf, leaf.span.stop⟩

def extent : Part → Extent
  | .leaf part => leafExtent part
  | .expr part => part.extent
  | .trailer part => part.extent
  | .clause part => part.extent
  | .argument part => part.extent
  | .subscript part => part.extent
  | .parameters part => part.extent
  | .parameter part => part.extent
  | .holder _ part => part.extent
  | .dottedName part => part.extent
  | .importAlias part => part.extent
  | .withItem part => part.extent
  | .suite part => part.extent
  | .branch part => part.extent
  | .handler part => part.extent
  | .block _ part => part.extent
  | .statement part => part.extent
  | .script part => part.extent
  | .error extent => extent

/-- The extent of a node that starts at an offset and has these parts. -/
def extentOf (start : Nat) (parts : List Part) : Extent :=
  let stop := (parts.getLast?.map fun part => part.extent.span.stop).getD start
  let significant := parts.filter fun part => part.extent.first.isSome
  ⟨⟨start, stop⟩, significant.head?.bind fun part => part.extent.first,
    (significant.getLast?.map fun part => part.extent.last).getD stop⟩

def expr? : Part → Option Expr
  | .expr part => some part
  | _ => none

def name? : Part → Option Name
  | .expr (.name part) => some part
  | _ => none

def trailer? : Part → Option Trailer
  | .trailer part => some part
  | _ => none

def arguments? : Part → Option Arguments
  | .trailer (.arguments extent items) => some ⟨extent, items⟩
  | _ => none

def clause? : Part → Option Clause
  | .clause part => some part
  | _ => none

def argument? : Part → Option Argument
  | .argument part => some part
  | _ => none

def subscript? : Part → Option Subscript
  | .subscript part => some part
  | _ => none

def parameters? : Part → Option Parameters
  | .parameters part => some part
  | _ => none

def parameter? : Part → Option Parameter
  | .parameter part => some part
  | _ => none

def holder? (kind : NodeKind) : Part → Option Holder
  | .holder k part => if k = kind then some part else none
  | _ => none

def dottedName? : Part → Option DottedName
  | .dottedName part => some part
  | _ => none

def importAlias? : Part → Option ImportAlias
  | .importAlias part => some part
  | _ => none

def withItem? : Part → Option WithItem
  | .withItem part => some part
  | _ => none

def suite? : Part → Option Suite
  | .suite part => some part
  | _ => none

def branch? : Part → Option Branch
  | .branch part => some part
  | _ => none

def handler? : Part → Option Handler
  | .handler part => some part
  | _ => none

def block? (kind : NodeKind) : Part → Option Block
  | .block k part => if k = kind then some part else none
  | _ => none

def statement? : Part → Option Statement
  | .statement part => some part
  | _ => none

def significantLeaf? : Part → Option Leaf
  | .leaf part => if part.kind.isTrivia then none else some part
  | _ => none

/-- A token of the given kind is among the parts. -/
def hasToken (kind : TokenKind) (parts : List Part) : Bool :=
  parts.any fun
    | .leaf part => part.kind = kind
    | _ => false

/-- One or two stars are among the parts. -/
def hasStars (parts : List Part) : Bool :=
  hasToken (.symbol .star) parts || hasToken (.symbol .doubleStar) parts

/-- Kind of the first significant token among the parts. -/
def operator? (parts : List Part) : Option TokenKind :=
  (parts.findSome? significantLeaf?).map Leaf.kind

/-- The bracket that a comprehension stands in. A generator may have none. -/
def bracket? (parts : List Part) : Option TokenKind :=
  [.symbol .leftBracket, .symbol .leftBrace, .symbol .leftParen].find? fun kind =>
    hasToken kind parts

/-- A node of the given kind and extent with its parts. -/
def assemble (kind : NodeKind) (extent : Extent) (parts : List Part) : Part :=
  let exprs := parts.filterMap expr?
  let first := exprs.head?
  let second := exprs[1]?
  let names := parts.filterMap name?
  let body := parts.findSome? suite?
  let holder := fun kind => parts.findSome? (holder? kind)
  let decorators := parts.filterMap (holder? .decorator)
  let otherwise := parts.findSome? (block? .elseClause)
  match kind with
  | .file => .script ⟨extent, parts.filterMap statement?⟩
  | .expressionStatement =>
    .statement (.expressionStatement extent exprs (hasToken (.symbol .equals) parts)
      (hasToken (.symbol .augmented) parts) (holder .typeHint))
  | .passStatement => .statement (.passStatement extent)
  | .breakStatement => .statement (.breakStatement extent)
  | .continueStatement => .statement (.continueStatement extent)
  | .returnStatement => .statement (.returnStatement extent first)
  | .importStatement => .statement (.importStatement extent (parts.filterMap importAlias?))
  | .fromImportStatement =>
    .statement (.fromImportStatement extent (parts.findSome? dottedName?)
      (parts.filterMap importAlias?) (hasToken (.symbol .star) parts))
  | .importAlias =>
    .importAlias ⟨extent, parts.findSome? dottedName?, names, hasToken (.keyword .asWord) parts⟩
  | .dottedName => .dottedName ⟨extent, names⟩
  | .function =>
    .statement (.function extent decorators names.head? (parts.findSome? parameters?)
      (holder .returnType) body)
  | .parameters => .parameters ⟨extent, parts.filterMap parameter?⟩
  | .parameter =>
    .parameter ⟨extent, names.head?, holder .typeHint, holder .defaultValue, hasStars parts⟩
  | .typeHint => .holder .typeHint ⟨extent, first⟩
  | .defaultValue => .holder .defaultValue ⟨extent, first⟩
  | .returnType => .holder .returnType ⟨extent, first⟩
  | .decorator => .holder .decorator ⟨extent, first⟩
  | .classDefinition =>
    .statement (.classDefinition extent decorators names.head? (parts.findSome? arguments?) body)
  | .suite => .suite ⟨extent, parts.filterMap statement?⟩
  | .ifStatement =>
    .statement (.ifStatement extent first body (parts.filterMap branch?) otherwise)
  | .elifClause => .branch ⟨extent, first, body⟩
  | .elseClause => .block .elseClause ⟨extent, body⟩
  | .finallyClause => .block .finallyClause ⟨extent, body⟩
  | .whileStatement => .statement (.whileStatement extent first body otherwise)
  | .forStatement => .statement (.forStatement extent first second body otherwise)
  | .withStatement => .statement (.withStatement extent (parts.filterMap withItem?) body)
  | .withItem =>
    .withItem ⟨extent, first, if hasToken (.keyword .asWord) parts then second else none⟩
  | .tryStatement =>
    .statement (.tryStatement extent body (parts.filterMap handler?) otherwise
      (parts.findSome? (block? .finallyClause)))
  | .exceptClause =>
    .handler ⟨extent, first,
      if hasToken (.keyword .asWord) parts then names.getLast? else none, body⟩
  | .raiseStatement => .statement (.raiseStatement extent exprs)
  | .assertStatement => .statement (.assertStatement extent exprs)
  | .delStatement => .statement (.delStatement extent first)
  | .globalStatement =>
    .statement (.globalStatement extent names (hasToken (.keyword .nonlocalWord) parts))
  | .expressionList => .expr (.expressionList extent exprs)
  | .conditional => .expr (.conditional extent exprs)
  | .lambda => .expr (.lambda extent (parts.findSome? parameters?) first)
  | .yield => .expr (.yield extent first)
  | .binary => .expr (.binary extent (operator? parts) first second)
  | .unary => .expr (.unary extent (operator? parts) first)
  | .chain => .expr (.chain extent first (parts.filterMap trailer?))
  | .name =>
    .expr (.name ⟨extent, (parts.filterMap significantLeaf?).find? fun leaf => leaf.kind = .name⟩)
  | .literal => .expr (.literal extent (parts.filterMap significantLeaf?))
  | .parenthesized => .expr (.parenthesized extent first)
  | .list => .expr (.list extent exprs)
  | .dictionary => .expr (.dictionary extent exprs)
  | .comprehension =>
    .expr (.comprehension extent exprs (parts.filterMap clause?) (bracket? parts)
      (hasToken (.symbol .colon) parts))
  | .forClause => .clause (.forClause extent first second)
  | .ifClause => .clause (.ifClause extent first)
  | .arguments => .trailer (.arguments extent (parts.filterMap argument?))
  | .argument =>
    .argument ⟨extent, if hasToken (.symbol .equals) parts then names.head? else none,
      hasStars parts, exprs.getLast?⟩
  | .subscripts => .trailer (.subscripts extent (parts.filterMap subscript?))
  | .subscript => .subscript ⟨extent, exprs⟩
  | .attribute => .trailer (.attribute extent names.head?)
  | .error => .error extent

mutual

/-- Reads a tree that starts at an offset. -/
def ofTree (offset : Nat) : Tree → Part
  | .token kind text =>
    .leaf ⟨kind, String.ofList text, ⟨offset, offset + Text.byteLength text⟩⟩
  | .node kind children =>
    let parts := ofTrees offset children
    assemble kind (extentOf offset parts) parts

/-- Reads trees that stand next to each other from an offset on. -/
def ofTrees (offset : Nat) : List Tree → List Part
  | [] => []
  | tree :: trees =>
    let part := ofTree offset tree
    part :: ofTrees part.extent.span.stop trees

end

end Part

/-- Reads a whole tree. A tree that is not of a file has no statements. -/
def Script.ofTree (tree : Tree) : Script :=
  match Part.ofTree 0 tree with
  | .script script => script
  | part => ⟨part.extent, []⟩

end Ast

end QuantumScript
