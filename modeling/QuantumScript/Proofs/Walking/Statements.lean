import QuantumScript.Inference.Statements
import QuantumScript.Proofs.Walking.Expressions
/-!
# Walks of statements

The walk of a script keeps to a region if all its statements are on lines of the region, and those in
the body of a function or class on lines of this function or class.
-/

namespace QuantumScript

/-- The arguments that the statement derives a class from. -/
def Ast.Statement.bases : Statement → List Argument
  | .classDefinition _ _ _ bases _ => basesOf bases
  | _ => []

/-- A plain name names a type as itself. -/
theorem Ast.Expr.typeName?_of_plainName? {value : Option Expr} {name : String}
    (h : value.bind plainName? = some name) : value.bind typeName? = some name := by
  obtain ⟨e, rfl, hplain⟩ := Option.bind_eq_some_iff.mp h
  cases e with
  | name part => exact hplain
  | _ => cases hplain

namespace Inference

open Text (LineIndex)

mutual

/-- The statement, and all that stands in it, is on lines of the region. -/
def Region.Bounds (index : LineIndex) (region : Region) : Ast.Statement → Prop
  | .function extent _ _ _ _ body | .classDefinition extent _ _ _ body =>
    region.Holds (index.firstLine extent) (index.lastLine extent) ∧
      (region.narrow (index.firstLine extent) (index.lastLine extent)).BoundsSuite index body
  | .ifStatement extent _ body others otherwise =>
    region.Has (index.firstLine extent) ∧ region.BoundsSuite index body ∧
      region.BoundsBranches index others ∧ region.BoundsBlock index otherwise
  | .whileStatement extent _ body otherwise | .forStatement extent _ _ body otherwise =>
    region.Has (index.firstLine extent) ∧ region.BoundsSuite index body ∧
      region.BoundsBlock index otherwise
  | .withStatement extent _ body =>
    region.Has (index.firstLine extent) ∧ region.BoundsSuite index body
  | .tryStatement extent body caught otherwise cleanup =>
    region.Has (index.firstLine extent) ∧ region.BoundsSuite index body ∧
      region.BoundsHandlers index caught ∧ region.BoundsBlock index otherwise ∧
        region.BoundsBlock index cleanup
  | .expressionStatement extent _ _ _ _ | .passStatement extent | .breakStatement extent
  | .continueStatement extent | .globalStatement extent _ _ | .returnStatement extent _
  | .importStatement extent _ | .fromImportStatement extent _ _ _ | .raiseStatement extent _
  | .assertStatement extent _ | .delStatement extent _ => region.Has (index.firstLine extent)

def Region.BoundsAll (index : LineIndex) (region : Region) : List Ast.Statement → Prop
  | [] => True
  | first :: rest => region.Bounds index first ∧ region.BoundsAll index rest

def Region.BoundsSuite (index : LineIndex) (region : Region) : Option Ast.Suite → Prop
  | none => True
  | some ⟨_, items⟩ => region.BoundsAll index items

def Region.BoundsBranches (index : LineIndex) (region : Region) : List Ast.Branch → Prop
  | [] => True
  | ⟨_, _, body⟩ :: rest => region.BoundsSuite index body ∧ region.BoundsBranches index rest

def Region.BoundsHandlers (index : LineIndex) (region : Region) : List Ast.Handler → Prop
  | [] => True
  | ⟨extent, _, _, body⟩ :: rest =>
    region.Has (index.firstLine extent) ∧ region.BoundsSuite index body ∧
      region.BoundsHandlers index rest

def Region.BoundsBlock (index : LineIndex) (region : Region) : Option Ast.Block → Prop
  | none => True
  | some ⟨_, body⟩ => region.BoundsSuite index body

end

theorem Region.Bounds.has {index : LineIndex} {region : Region} {s : Ast.Statement}
    (h : region.Bounds index s) : region.Has (index.firstLine s.extent) := by
  cases s with
  | function | classDefinition => exact h.1.has
  | ifStatement | whileStatement | forStatement | withStatement | tryStatement => exact h.1
  | _ => exact h

theorem Region.BoundsAll.has {index : LineIndex} {region : Region} {items : List Ast.Statement}
    (h : region.BoundsAll index items) :
    ∀ s ∈ items, region.Has (index.firstLine s.extent) := by
  induction items with
  | nil => exact nofun
  | cons first rest ih => exact List.forall_mem_cons.mpr ⟨h.1.has, ih h.2⟩

section Targets

variable {region : Region} {line : Nat} (index : LineIndex)

private theorem walk_hinted (hint : Option Ast.Holder) : Walk region (hinted hint) :=
  .bind .table fun _ => .pure _

private theorem walk_target (h : region.Has line) (e : Ast.Expr) : Walk region (target index line e) := by
  unfold target
  split
  · exact .pure ()
  case h_5 => exact .bind (walk_expr index h true e) fun _ => .pure _
  all_goals
    split
    · exact .bind (.track _) fun _ => walk_defineTarget h _ _
    · exact walk_defineTarget h _ _

private theorem walk_targets (h : region.Has line) (items : List Ast.Expr) :
    Walk region (targets index line items) := by
  induction items with
  | nil => exact .pure ()
  | cons first rest ih =>
    exact .bind (.track _) fun _ => .bind (walk_target index h first) fun _ => .bind (.track _) fun _ => ih

private theorem walk_assignment (h : region.Has line) (hint : Option SymbolType) (left : List Ast.Expr)
    (value : Ast.Expr) : Walk region (assignment index line hint left value) := by
  refine .bind (walk_targets index h left) fun _ => .bind (.track _) fun _ => ?_
  refine .bind (walk_expr index h true value) fun walked => .bind .finish fun finished => ?_
  cases finished with
  | none => exact .pure ()
  | some finished => exact .bind .table fun _ => walk_defineAll h _ _

theorem walk_expressions (h : region.Has line) (items : List Ast.Expr) (assigns augments : Bool)
    (hint : Option Ast.Holder) : Walk region (expressions index line items assigns augments hint) := by
  unfold expressions
  split
  · exact walk_exprs index h items
  refine .bind (walk_hinted hint) fun hint => ?_
  split
  · split
    · exact walk_assignment index h hint _ _
    · exact .pure ()
  · split
    · exact walk_forM fun item _ => walk_defineTarget h item _
    · exact walk_exprs index h items

theorem walk_parameters (h : region.Has line) (owner : Option ClassType) (items : List Ast.Parameter) :
    Walk region (parameters line owner items) := by
  induction items generalizing owner with
  | nil => exact .pure ()
  | cons parameter rest ih =>
    unfold parameters
    split
    · split
      · split
        · exact .bind (walk_hinted _) fun _ => .bind (walk_define h _ _) fun _ => ih none
        · exact .bind (walk_define h _ _) fun _ => ih none
      · exact .bind (walk_hinted _) fun _ => .bind (walk_define h _ _) fun _ => ih none
    · exact ih none

theorem walk_caughtName (h : region.Has line) (name : Option Ast.Name) (caught : Option SymbolType) :
    Walk region (caughtName line name caught) := by
  unfold caughtName
  split
  · exact walk_define h _ _
  · exact .pure ()

theorem walk_withItems (h : region.Has line) (items : List Ast.WithItem) :
    Walk region (withItems index line items) := by
  induction items with
  | nil => exact .pure ()
  | cons item rest ih =>
    refine .bind (walk_optional index h item.value) fun _ => ?_
    split
    · exact .bind (walk_defineTarget h _ _) fun _ => ih
    · exact ih

theorem walk_defineImports (h : region.Has line) (statement : Ast.Statement) :
    Walk region (modifyTable fun table => table.defineImports line statement) :=
  .change fun table => Region.Binds.defineImports h table statement

end Targets

section Statements

variable (index : LineIndex)

mutual

/-- The walk of a statement keeps to the region that its lines are in. -/
theorem walk_statement {region : Region} (owner : Option ClassType) (s : Ast.Statement)
    (h : region.Bounds index s) : Walk region (statement index owner s) := by
  match s with
  | .expressionStatement _ items assigns augments hint =>
    rw [statement]
    exact .bind (walk_enter h) fun _ => walk_expressions index h items assigns augments hint
  | .passStatement _ | .breakStatement _ | .continueStatement _ | .globalStatement _ _ _ =>
    rw [statement]
    exact walk_enter h
  | .returnStatement _ value | .delStatement _ value =>
    rw [statement]
    exact .bind (walk_enter h) fun _ => .bind (walk_optional index h value) fun _ => .pure _
  | .importStatement _ _ | .fromImportStatement _ _ _ _ =>
    rw [statement]
    exact .bind (walk_enter h) fun _ => walk_defineImports h _
  | .raiseStatement _ items | .assertStatement _ items =>
    rw [statement]
    exact .bind (walk_enter h) fun _ => walk_exprs index h items
  | .function extent decorated name items returns body =>
    obtain ⟨hholds, hbody⟩ := h
    have hnarrow := hholds.narrow_has
    rw [statement]
    refine .bind (walk_enter hholds.has) fun _ => .bind (walk_exprs index hholds.has _) fun _ => ?_
    split
    · exact .pure ()
    · refine .bind (walk_defaults index hholds.has _) fun _ => ?_
      refine .bind (walk_define hholds.has _ _) fun _ => .within hholds ?_
      exact .bind (walk_parameters hnarrow owner _) fun _ => walk_suite none body hbody
  | .classDefinition extent decorated name bases body =>
    obtain ⟨hholds, hbody⟩ := h
    rw [statement]
    refine .bind (walk_enter hholds.has) fun _ => .bind (walk_exprs index hholds.has _) fun _ => ?_
    refine .bind (walk_types index hholds.has _) fun _ => ?_
    split
    · exact .pure ()
    · refine .bind (walk_define hholds.has _ _) fun _ => .within hholds ?_
      exact walk_suite _ body hbody
  | .ifStatement extent condition body others otherwise =>
    obtain ⟨hline, hbody, hothers, hotherwise⟩ := h
    rw [statement]
    refine .bind (walk_enter hline) fun _ => .bind (walk_optional index hline condition) fun _ => ?_
    refine .bind (walk_suite owner body hbody) fun _ => ?_
    exact .bind (walk_branches hline owner others hothers) fun _ => walk_block owner otherwise hotherwise
  | .whileStatement extent condition body otherwise =>
    obtain ⟨hline, hbody, hotherwise⟩ := h
    rw [statement]
    refine .bind (walk_enter hline) fun _ => .bind (walk_optional index hline condition) fun _ => ?_
    exact .bind (walk_suite owner body hbody) fun _ => walk_block owner otherwise hotherwise
  | .forStatement extent target iterable body otherwise =>
    obtain ⟨hline, hbody, hotherwise⟩ := h
    rw [statement]
    refine .bind (walk_enter hline) fun _ => .bind (walk_optional index hline iterable) fun _ => ?_
    refine .bind (walk_defineLoopTarget hline _ _ _) fun _ => ?_
    exact .bind (walk_suite owner body hbody) fun _ => walk_block owner otherwise hotherwise
  | .withStatement extent items body =>
    obtain ⟨hline, hbody⟩ := h
    rw [statement]
    refine .bind (walk_enter hline) fun _ => .bind (walk_withItems index hline items) fun _ => ?_
    exact walk_suite owner body hbody
  | .tryStatement extent body caught otherwise cleanup =>
    obtain ⟨hline, hbody, hcaught, hotherwise, hcleanup⟩ := h
    rw [statement]
    refine .bind (walk_enter hline) fun _ => .bind (walk_suite owner body hbody) fun _ => ?_
    refine .bind (walk_handlers owner caught hcaught) fun _ => ?_
    exact .bind (walk_block owner otherwise hotherwise) fun _ => walk_block owner cleanup hcleanup

theorem walk_statements {region : Region} (owner : Option ClassType) (items : List Ast.Statement)
    (h : region.BoundsAll index items) : Walk region (statements index owner items) := by
  match items with
  | [] =>
    rw [statements]
    exact .pure ()
  | first :: rest =>
    rw [statements]
    exact .bind (walk_statement owner first h.1) fun _ => walk_statements owner rest h.2

theorem walk_suite {region : Region} (owner : Option ClassType) (body : Option Ast.Suite)
    (h : region.BoundsSuite index body) : Walk region (suite index owner body) := by
  match body with
  | none =>
    rw [suite]
    exact .pure ()
  | some ⟨_, items⟩ =>
    rw [suite]
    exact walk_statements owner items h

theorem walk_branches {region : Region} {line : Nat} (hline : region.Has line)
    (owner : Option ClassType) (items : List Ast.Branch) (h : region.BoundsBranches index items) :
    Walk region (branches index line owner items) := by
  match items with
  | [] =>
    rw [branches]
    exact .pure ()
  | ⟨_, condition, body⟩ :: rest =>
    rw [branches]
    refine .bind (walk_optional index hline condition) fun _ => ?_
    exact .bind (walk_suite owner body h.1) fun _ => walk_branches hline owner rest h.2

theorem walk_handlers {region : Region} (owner : Option ClassType) (items : List Ast.Handler)
    (h : region.BoundsHandlers index items) : Walk region (handlers index owner items) := by
  match items with
  | [] =>
    rw [handlers]
    exact .pure ()
  | ⟨_, caught, name, body⟩ :: rest =>
    obtain ⟨hline, hbody, hrest⟩ := h
    rw [handlers]
    refine .bind (walk_enter hline) fun _ => .bind (walk_optional index hline caught) fun _ => ?_
    refine .bind (walk_caughtName hline name _) fun _ => ?_
    exact .bind (walk_suite owner body hbody) fun _ => walk_handlers owner rest hrest

theorem walk_block {region : Region} (owner : Option ClassType) (otherwise : Option Ast.Block)
    (h : region.BoundsBlock index otherwise) : Walk region (block index owner otherwise) := by
  match otherwise with
  | none =>
    rw [block]
    exact .pure ()
  | some ⟨_, body⟩ =>
    rw [block]
    exact walk_suite owner body h

end

/-- The walk of a script keeps to the region that all its statements are in. -/
theorem walk_script {region : Region} (source : Ast.Script)
    (h : region.BoundsAll index source.statements) (hend : region.Sees (index.lastLine source.extent)) :
    Walk region (script index source) := by
  refine .bind (walk_statements index none source.statements h) fun _ => ?_
  exact .change fun table => Region.Binds.reach hend table

mutual

/-- Any statement is somewhere. -/
theorem bounds_anywhere (s : Ast.Statement) : Region.anywhere.Bounds index s := by
  match s with
  | .function _ _ _ _ _ body | .classDefinition _ _ _ _ body => exact ⟨trivial, boundsSuite_anywhere body⟩
  | .ifStatement _ _ body others otherwise =>
    exact ⟨trivial, boundsSuite_anywhere body, boundsBranches_anywhere others,
      boundsBlock_anywhere otherwise⟩
  | .whileStatement _ _ body otherwise | .forStatement _ _ _ body otherwise =>
    exact ⟨trivial, boundsSuite_anywhere body, boundsBlock_anywhere otherwise⟩
  | .withStatement _ _ body => exact ⟨trivial, boundsSuite_anywhere body⟩
  | .tryStatement _ body caught otherwise cleanup =>
    exact ⟨trivial, boundsSuite_anywhere body, boundsHandlers_anywhere caught,
      boundsBlock_anywhere otherwise, boundsBlock_anywhere cleanup⟩
  | .expressionStatement _ _ _ _ _ | .passStatement _ | .breakStatement _
  | .continueStatement _ | .globalStatement _ _ _ | .returnStatement _ _
  | .importStatement _ _ | .fromImportStatement _ _ _ _ | .raiseStatement _ _
  | .assertStatement _ _ | .delStatement _ _ => trivial

theorem boundsAll_anywhere (items : List Ast.Statement) : Region.anywhere.BoundsAll index items := by
  match items with
  | [] => trivial
  | first :: rest => exact ⟨bounds_anywhere first, boundsAll_anywhere rest⟩

theorem boundsSuite_anywhere (body : Option Ast.Suite) : Region.anywhere.BoundsSuite index body := by
  match body with
  | none => trivial
  | some ⟨_, items⟩ => exact boundsAll_anywhere items

theorem boundsBranches_anywhere (items : List Ast.Branch) :
    Region.anywhere.BoundsBranches index items := by
  match items with
  | [] => trivial
  | ⟨_, _, body⟩ :: rest => exact ⟨boundsSuite_anywhere body, boundsBranches_anywhere rest⟩

theorem boundsHandlers_anywhere (items : List Ast.Handler) :
    Region.anywhere.BoundsHandlers index items := by
  match items with
  | [] => trivial
  | ⟨_, _, _, body⟩ :: rest =>
    exact ⟨trivial, boundsSuite_anywhere body, boundsHandlers_anywhere rest⟩

theorem boundsBlock_anywhere (otherwise : Option Ast.Block) :
    Region.anywhere.BoundsBlock index otherwise := by
  match otherwise with
  | none => trivial
  | some ⟨_, body⟩ => exact boundsSuite_anywhere body

end

/-- The walk of any script is put together from the steps given here. -/
theorem walk_script_anywhere (source : Ast.Script) : Walk .anywhere (script index source) :=
  walk_script index source (boundsAll_anywhere index source.statements) trivial

end Statements

end Inference

end QuantumScript
