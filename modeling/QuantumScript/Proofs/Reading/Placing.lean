import QuantumScript.Syntax.Reading
/-!
# Placing the abstract syntax

The abstract syntax of a tree depends on where the tree stands only in its extents and spans. One
function changes them all over a part. What a node picks from its parts does not depend on them, so
that assembling the changed parts gives the changed node.
-/

namespace QuantumScript

namespace Ast

open Syntax

/-- What becomes of the places in a part. -/
structure Placing where
  extent : Extent → Extent
  span : Span → Span

variable (g : Placing)

def Leaf.place (leaf : Leaf) : Leaf := { leaf with span := g.span leaf.span }

def Name.place (name : Name) : Name := ⟨g.extent name.extent, name.ident.map (Leaf.place g)⟩

def DottedName.place (path : DottedName) : DottedName :=
  ⟨g.extent path.extent, path.names.map (Name.place g)⟩

def ImportAlias.place (item : ImportAlias) : ImportAlias :=
  { item with
    extent := g.extent item.extent
    path := item.path.map (DottedName.place g)
    names := item.names.map (Name.place g) }

mutual

def Holder.place : Holder → Holder
  | ⟨extent, value⟩ => ⟨g.extent extent, placeOptional value⟩

def placeHolder : Option Holder → Option Holder
  | none => none
  | some holder => some holder.place

def Parameter.place : Parameter → Parameter
  | ⟨extent, name, hint, default, variadic⟩ =>
    ⟨g.extent extent, name.map (Name.place g), placeHolder hint, placeHolder default, variadic⟩

def placeItems : List Parameter → List Parameter
  | [] => []
  | parameter :: rest => parameter.place :: placeItems rest

def Parameters.place : Parameters → Parameters
  | ⟨extent, items⟩ => ⟨g.extent extent, placeItems items⟩

def placeParameters : Option Parameters → Option Parameters
  | none => none
  | some parameters => some parameters.place

def Argument.place : Argument → Argument
  | ⟨extent, keyword, unpacked, value⟩ =>
    ⟨g.extent extent, keyword.map (Name.place g), unpacked, placeOptional value⟩

def placeArguments : List Argument → List Argument
  | [] => []
  | argument :: rest => argument.place :: placeArguments rest

def Subscript.place : Subscript → Subscript
  | ⟨extent, parts⟩ => ⟨g.extent extent, placeExprs parts⟩

def placeSubscripts : List Subscript → List Subscript
  | [] => []
  | subscript :: rest => subscript.place :: placeSubscripts rest

def Clause.place : Clause → Clause
  | .forClause extent target iterable =>
    .forClause (g.extent extent) (placeOptional target) (placeOptional iterable)
  | .ifClause extent condition => .ifClause (g.extent extent) (placeOptional condition)

def placeClauses : List Clause → List Clause
  | [] => []
  | clause :: rest => clause.place :: placeClauses rest

def Trailer.place : Trailer → Trailer
  | .arguments extent items => .arguments (g.extent extent) (placeArguments items)
  | .subscripts extent items => .subscripts (g.extent extent) (placeSubscripts items)
  | .attribute extent name => .attribute (g.extent extent) (name.map (Name.place g))

def placeTrailers : List Trailer → List Trailer
  | [] => []
  | trailer :: rest => trailer.place :: placeTrailers rest

def Expr.place : Expr → Expr
  | .name name => .name (name.place g)
  | .literal extent tokens => .literal (g.extent extent) (tokens.map (Leaf.place g))
  | .chain extent atom trailers =>
    .chain (g.extent extent) (placeOptional atom) (placeTrailers trailers)
  | .binary extent operator left right =>
    .binary (g.extent extent) operator (placeOptional left) (placeOptional right)
  | .unary extent operator operand => .unary (g.extent extent) operator (placeOptional operand)
  | .parenthesized extent inner => .parenthesized (g.extent extent) (placeOptional inner)
  | .list extent items => .list (g.extent extent) (placeExprs items)
  | .dictionary extent items => .dictionary (g.extent extent) (placeExprs items)
  | .conditional extent parts => .conditional (g.extent extent) (placeExprs parts)
  | .expressionList extent items => .expressionList (g.extent extent) (placeExprs items)
  | .lambda extent parameters body =>
    .lambda (g.extent extent) (placeParameters parameters) (placeOptional body)
  | .yield extent value => .yield (g.extent extent) (placeOptional value)
  | .comprehension extent elements clauses bracket keyed =>
    .comprehension (g.extent extent) (placeExprs elements) (placeClauses clauses) bracket keyed

def placeOptional : Option Expr → Option Expr
  | none => none
  | some expr => some expr.place

def placeExprs : List Expr → List Expr
  | [] => []
  | expr :: rest => expr.place :: placeExprs rest

end

def Arguments.place (arguments : Arguments) : Arguments :=
  ⟨g.extent arguments.extent, placeArguments g arguments.items⟩

def WithItem.place (item : WithItem) : WithItem :=
  ⟨g.extent item.extent, placeOptional g item.value, placeOptional g item.target⟩

mutual

def Suite.place : Suite → Suite
  | ⟨extent, statements⟩ => ⟨g.extent extent, placeStatements statements⟩

def placeSuite : Option Suite → Option Suite
  | none => none
  | some suite => some suite.place

def Branch.place : Branch → Branch
  | ⟨extent, condition, body⟩ => ⟨g.extent extent, placeOptional g condition, placeSuite body⟩

def placeBranches : List Branch → List Branch
  | [] => []
  | branch :: rest => branch.place :: placeBranches rest

def Handler.place : Handler → Handler
  | ⟨extent, caught, name, body⟩ =>
    ⟨g.extent extent, placeOptional g caught, name.map (Name.place g), placeSuite body⟩

def placeHandlers : List Handler → List Handler
  | [] => []
  | handler :: rest => handler.place :: placeHandlers rest

def Block.place : Block → Block
  | ⟨extent, body⟩ => ⟨g.extent extent, placeSuite body⟩

def placeBlock : Option Block → Option Block
  | none => none
  | some block => some block.place

def Statement.place : Statement → Statement
  | .expressionStatement extent exprs assigns augments hint =>
    .expressionStatement (g.extent extent) (placeExprs g exprs) assigns augments
      (placeHolder g hint)
  | .passStatement extent => .passStatement (g.extent extent)
  | .breakStatement extent => .breakStatement (g.extent extent)
  | .continueStatement extent => .continueStatement (g.extent extent)
  | .returnStatement extent value => .returnStatement (g.extent extent) (placeOptional g value)
  | .importStatement extent aliases =>
    .importStatement (g.extent extent) (aliases.map (ImportAlias.place g))
  | .fromImportStatement extent path aliases all =>
    .fromImportStatement (g.extent extent) (path.map (DottedName.place g))
      (aliases.map (ImportAlias.place g)) all
  | .function extent decorators name parameters returns body =>
    .function (g.extent extent) (decorators.map (Holder.place g)) (name.map (Name.place g))
      (placeParameters g parameters) (placeHolder g returns) (placeSuite body)
  | .classDefinition extent decorators name bases body =>
    .classDefinition (g.extent extent) (decorators.map (Holder.place g)) (name.map (Name.place g))
      (bases.map (Arguments.place g)) (placeSuite body)
  | .ifStatement extent condition body branches otherwise =>
    .ifStatement (g.extent extent) (placeOptional g condition) (placeSuite body)
      (placeBranches branches) (placeBlock otherwise)
  | .whileStatement extent condition body otherwise =>
    .whileStatement (g.extent extent) (placeOptional g condition) (placeSuite body)
      (placeBlock otherwise)
  | .forStatement extent target iterable body otherwise =>
    .forStatement (g.extent extent) (placeOptional g target) (placeOptional g iterable)
      (placeSuite body) (placeBlock otherwise)
  | .withStatement extent items body =>
    .withStatement (g.extent extent) (items.map (WithItem.place g)) (placeSuite body)
  | .tryStatement extent body handlers otherwise cleanup =>
    .tryStatement (g.extent extent) (placeSuite body) (placeHandlers handlers)
      (placeBlock otherwise) (placeBlock cleanup)
  | .raiseStatement extent exprs => .raiseStatement (g.extent extent) (placeExprs g exprs)
  | .assertStatement extent exprs => .assertStatement (g.extent extent) (placeExprs g exprs)
  | .delStatement extent target => .delStatement (g.extent extent) (placeOptional g target)
  | .globalStatement extent names nonlocal =>
    .globalStatement (g.extent extent) (names.map (Name.place g)) nonlocal

def placeStatements : List Statement → List Statement
  | [] => []
  | statement :: rest => statement.place :: placeStatements rest

end

def Script.place (script : Script) : Script :=
  ⟨g.extent script.extent, placeStatements g script.statements⟩

section Lists

@[simp] theorem placeHolder_eq (holder : Option Holder) :
    placeHolder g holder = holder.map (Holder.place g) := by
  cases holder <;> rfl

@[simp] theorem placeItems_eq (items : List Parameter) :
    placeItems g items = items.map (Parameter.place g) := by
  induction items with
  | nil => rfl
  | cons parameter rest ih => rw [placeItems, ih, List.map_cons]

@[simp] theorem placeParameters_eq (parameters : Option Parameters) :
    placeParameters g parameters = parameters.map (Parameters.place g) := by
  cases parameters <;> rfl

@[simp] theorem placeArguments_eq (items : List Argument) :
    placeArguments g items = items.map (Argument.place g) := by
  induction items with
  | nil => rfl
  | cons argument rest ih => rw [placeArguments, ih, List.map_cons]

@[simp] theorem placeSubscripts_eq (items : List Subscript) :
    placeSubscripts g items = items.map (Subscript.place g) := by
  induction items with
  | nil => rfl
  | cons subscript rest ih => rw [placeSubscripts, ih, List.map_cons]

@[simp] theorem placeClauses_eq (clauses : List Clause) :
    placeClauses g clauses = clauses.map (Clause.place g) := by
  induction clauses with
  | nil => rfl
  | cons clause rest ih => rw [placeClauses, ih, List.map_cons]

@[simp] theorem placeTrailers_eq (trailers : List Trailer) :
    placeTrailers g trailers = trailers.map (Trailer.place g) := by
  induction trailers with
  | nil => rfl
  | cons trailer rest ih => rw [placeTrailers, ih, List.map_cons]

@[simp] theorem placeOptional_eq (expr : Option Expr) :
    placeOptional g expr = expr.map (Expr.place g) := by
  cases expr <;> rfl

@[simp] theorem placeExprs_eq (exprs : List Expr) :
    placeExprs g exprs = exprs.map (Expr.place g) := by
  induction exprs with
  | nil => rfl
  | cons expr rest ih => rw [placeExprs, ih, List.map_cons]

@[simp] theorem placeSuite_eq (suite : Option Suite) :
    placeSuite g suite = suite.map (Suite.place g) := by
  cases suite <;> rfl

@[simp] theorem placeBranches_eq (branches : List Branch) :
    placeBranches g branches = branches.map (Branch.place g) := by
  induction branches with
  | nil => rfl
  | cons branch rest ih => rw [placeBranches, ih, List.map_cons]

@[simp] theorem placeHandlers_eq (handlers : List Handler) :
    placeHandlers g handlers = handlers.map (Handler.place g) := by
  induction handlers with
  | nil => rfl
  | cons handler rest ih => rw [placeHandlers, ih, List.map_cons]

@[simp] theorem placeBlock_eq (block : Option Block) :
    placeBlock g block = block.map (Block.place g) := by
  cases block <;> rfl

@[simp] theorem placeStatements_eq (statements : List Statement) :
    placeStatements g statements = statements.map (Statement.place g) := by
  induction statements with
  | nil => rfl
  | cons statement rest ih => rw [placeStatements, ih, List.map_cons]

end Lists

namespace Part

def place : Part → Part
  | .leaf part => .leaf (part.place g)
  | .expr part => .expr (part.place g)
  | .trailer part => .trailer (part.place g)
  | .clause part => .clause (part.place g)
  | .argument part => .argument (part.place g)
  | .subscript part => .subscript (part.place g)
  | .parameters part => .parameters (part.place g)
  | .parameter part => .parameter (part.place g)
  | .holder kind part => .holder kind (part.place g)
  | .dottedName part => .dottedName (part.place g)
  | .importAlias part => .importAlias (part.place g)
  | .withItem part => .withItem (part.place g)
  | .suite part => .suite (part.place g)
  | .branch part => .branch (part.place g)
  | .handler part => .handler (part.place g)
  | .block kind part => .block kind (part.place g)
  | .statement part => .statement (part.place g)
  | .script part => .script (part.place g)
  | .error extent => .error (g.extent extent)

/-- What a part is picked by does not depend on its place. -/
theorem filterMap_place {α : Type} {pick : Part → Option α} {change : α → α}
    (h : ∀ part, pick (part.place g) = (pick part).map change) (parts : List Part) :
    (parts.map (place g)).filterMap pick = (parts.filterMap pick).map change := by
  rw [List.filterMap_map, List.map_filterMap]
  exact congrArg (List.filterMap · parts) (funext h)

private theorem findSome?_place {α : Type} {pick : Part → Option α} {change : α → α}
    (h : ∀ part, pick (part.place g) = (pick part).map change) (parts : List Part) :
    (parts.map (place g)).findSome? pick = (parts.findSome? pick).map change := by
  rw [List.findSome?_map, List.map_findSome?]
  exact congrArg (List.findSome? · parts) (funext h)

section Picks

variable (part : Part)

private theorem expr?_place : (part.place g).expr? = part.expr?.map (Expr.place g) := by
  cases part <;> rfl

private theorem name?_place : (part.place g).name? = part.name?.map (Name.place g) := by
  cases part with
  | expr part => cases part <;> rfl
  | _ => rfl

private theorem trailer?_place : (part.place g).trailer? = part.trailer?.map (Trailer.place g) := by
  cases part <;> rfl

private theorem arguments?_place : (part.place g).arguments? = part.arguments?.map (Arguments.place g) := by
  cases part with
  | trailer part => cases part <;> rfl
  | _ => rfl

private theorem clause?_place : (part.place g).clause? = part.clause?.map (Clause.place g) := by
  cases part <;> rfl

private theorem argument?_place : (part.place g).argument? = part.argument?.map (Argument.place g) := by
  cases part <;> rfl

private theorem subscript?_place : (part.place g).subscript? = part.subscript?.map (Subscript.place g) := by
  cases part <;> rfl

private theorem parameters?_place :
    (part.place g).parameters? = part.parameters?.map (Parameters.place g) := by
  cases part <;> rfl

private theorem parameter?_place : (part.place g).parameter? = part.parameter?.map (Parameter.place g) := by
  cases part <;> rfl

private theorem holder?_place (kind : NodeKind) :
    (part.place g).holder? kind = (part.holder? kind).map (Holder.place g) := by
  cases part with
  | holder other part =>
    simp only [place, holder?]
    split <;> rfl
  | _ => rfl

private theorem dottedName?_place :
    (part.place g).dottedName? = part.dottedName?.map (DottedName.place g) := by
  cases part <;> rfl

private theorem importAlias?_place :
    (part.place g).importAlias? = part.importAlias?.map (ImportAlias.place g) := by
  cases part <;> rfl

private theorem withItem?_place : (part.place g).withItem? = part.withItem?.map (WithItem.place g) := by
  cases part <;> rfl

private theorem suite?_place : (part.place g).suite? = part.suite?.map (Suite.place g) := by
  cases part <;> rfl

private theorem branch?_place : (part.place g).branch? = part.branch?.map (Branch.place g) := by
  cases part <;> rfl

private theorem handler?_place : (part.place g).handler? = part.handler?.map (Handler.place g) := by
  cases part <;> rfl

private theorem block?_place (kind : NodeKind) :
    (part.place g).block? kind = (part.block? kind).map (Block.place g) := by
  cases part with
  | block other part =>
    simp only [place, block?]
    split <;> rfl
  | _ => rfl

theorem statement?_place : (part.place g).statement? = part.statement?.map (Statement.place g) := by
  cases part <;> rfl

private theorem significantLeaf?_place :
    (part.place g).significantLeaf? = part.significantLeaf?.map (Leaf.place g) := by
  cases part with
  | leaf part =>
    simp only [place, significantLeaf?, Leaf.place]
    split <;> rfl
  | _ => rfl

end Picks

section Parts

variable (parts : List Part)

@[simp] theorem hasToken_place (kind : TokenKind) :
    hasToken kind (parts.map (place g)) = hasToken kind parts := by
  rw [hasToken, List.any_map, hasToken]
  congr 1
  funext part
  cases part <;> rfl

@[simp] theorem hasStars_place : hasStars (parts.map (place g)) = hasStars parts := by
  simp [hasStars]

@[simp] theorem bracket?_place : bracket? (parts.map (place g)) = bracket? parts := by
  simp [bracket?]

@[simp] theorem operator?_place : operator? (parts.map (place g)) = operator? parts := by
  rw [operator?, findSome?_place g (significantLeaf?_place g), Option.map_map, operator?]
  rfl

private theorem find_name_place (leaves : List Leaf) :
    (leaves.map (Leaf.place g)).find? (fun leaf => leaf.kind = .name) =
      (leaves.find? fun leaf => leaf.kind = .name).map (Leaf.place g) := by
  rw [List.find?_map]
  rfl

private theorem map_ite {α : Type} (asked : Bool) (value : Option α) (change : α → α) :
    (if asked = true then value.map change else none) =
      (if asked = true then value else none).map change := by
  cases asked <;> rfl

theorem assemble_place (kind : NodeKind) (extent : Extent) :
    assemble kind (g.extent extent) (parts.map (place g)) =
      (assemble kind extent parts).place g := by
  have hholder (kind : NodeKind) := findSome?_place g (fun part => holder?_place g part kind) parts
  have hholders (kind : NodeKind) := filterMap_place g (fun part => holder?_place g part kind) parts
  have hblock (kind : NodeKind) := findSome?_place g (fun part => block?_place g part kind) parts
  have hexprs := filterMap_place g (expr?_place g) parts
  have hnames := filterMap_place g (name?_place g) parts
  have hbody := findSome?_place g (suite?_place g) parts
  have hparameters := findSome?_place g (parameters?_place g) parts
  have hpath := findSome?_place g (dottedName?_place g) parts
  have hleaves := filterMap_place g (significantLeaf?_place g) parts
  have haliases := filterMap_place g (importAlias?_place g) parts
  have hname := find_name_place g (parts.filterMap significantLeaf?)
  cases kind <;>
    simp only [assemble, place, hexprs, hnames, hbody, hparameters, hpath, haliases,
      hholder, hholders, hblock, hleaves, hname,
      findSome?_place g (arguments?_place g), filterMap_place g (trailer?_place g),
      filterMap_place g (clause?_place g), filterMap_place g (argument?_place g),
      filterMap_place g (subscript?_place g), filterMap_place g (parameter?_place g),
      filterMap_place g (withItem?_place g), filterMap_place g (branch?_place g),
      filterMap_place g (handler?_place g), filterMap_place g (statement?_place g),
      Script.place, Statement.place, Expr.place, Trailer.place, Clause.place, Holder.place,
      Argument.place, Subscript.place, Parameters.place, Parameter.place, DottedName.place,
      ImportAlias.place, WithItem.place, Suite.place, Branch.place, Handler.place, Block.place,
      Name.place, placeExprs_eq, placeOptional_eq, placeHolder_eq, placeSuite_eq, placeBlock_eq,
      placeStatements_eq, placeParameters_eq, placeItems_eq, placeArguments_eq, placeSubscripts_eq,
      placeClauses_eq, placeTrailers_eq, placeBranches_eq, placeHandlers_eq,
      List.head?_map, List.getLast?_map, List.getElem?_map, hasToken_place, hasStars_place,
      bracket?_place, operator?_place, map_ite]

end Parts

end Part

end Ast

end QuantumScript
