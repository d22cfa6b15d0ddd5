import QuantumScript.Proofs.Walking.Local
/-!
# Walks of expressions

Whatever is nested in an expression, its walk is local to the line of the expression. So it binds names
on this line only, and in scopes of its own.
-/

namespace QuantumScript

/-- The accesses that the expression is made of start at a name. -/
def Ast.Expr.startsAtName : Ast.Expr → Bool
  | .name part | .chain _ (some (.name part)) _ => part.ident.isSome
  | .parenthesized _ (some inner) => inner.startsAtName
  | _ => false

namespace Inference

open Text (LineIndex)

variable (index : LineIndex) {line : Nat} {owned : Bool}

mutual

/-- The walk of an expression is local. If it is tracked, it marks the side that starts at a name. -/
theorem local_expr {owned : Bool} (tracked : Bool) (e : Ast.Expr) :
    Local line owned (tracked && e.startsAtName) (expr index line tracked e) := by
  match e with
  | .name part =>
    rw [expr]
    exact .rest (local_name index tracked part) fun _ => .pure _
  | .literal _ tokens =>
    rw [expr, Ast.Expr.startsAtName, Bool.and_false]
    · exact .pure _
    all_goals simp
  | .chain _ none _ =>
    rw [expr, Ast.Expr.startsAtName, Bool.and_false]
    · exact .pure _
    all_goals simp
  | .chain _ (some atom) trailers =>
    have hatom : Local line owned false (expr index line false atom) := local_expr false atom
    cases atom with
    | name part =>
      rw [expr]
      refine .rest (local_name index tracked part) fun value => ?_
      split
      · exact .pure _
      · exact local_chain tracked _ trailers
    | _ =>
      rw [expr, Ast.Expr.startsAtName, Bool.and_false]
      · exact .next hatom fun _ => local_chain tracked _ trailers
      all_goals simp
  | .binary _ operator left right =>
    rw [expr, Ast.Expr.startsAtName, Bool.and_false]
    · refine .next (local_optional left) fun _ => .next (local_optional right) fun _ => ?_
      split <;> exact .pure _
    all_goals simp
  | .unary _ operator operand =>
    rw [expr, Ast.Expr.startsAtName, Bool.and_false]
    · exact .next (local_optional operand) fun _ => .pure _
    all_goals simp
  | .parenthesized _ none =>
    rw [expr, Ast.Expr.startsAtName, Bool.and_false]
    · exact .pure _
    all_goals simp
  | .parenthesized _ (some inner) =>
    rw [expr, Ast.Expr.startsAtName]
    exact local_expr tracked inner
  | .list _ items | .dictionary _ items | .conditional _ items | .expressionList _ items =>
    rw [expr, Ast.Expr.startsAtName, Bool.and_false]
    · exact .next (local_exprs items) fun _ => .pure _
    all_goals simp
  | .lambda _ none body =>
    rw [expr, Ast.Expr.startsAtName, Bool.and_false]
    · refine .next (.isolated ?_) fun _ => .pure _
      exact .next (local_defineAll _ _) fun _ => .next (local_optional body) fun _ => .pure _
    all_goals simp
  | .lambda _ (some ⟨_, items⟩) body =>
    rw [expr, Ast.Expr.startsAtName, Bool.and_false]
    · refine .next (local_defaults items) fun _ => .next (.isolated ?_) fun _ => .pure _
      exact .next (local_defineAll _ _) fun _ => .next (local_optional body) fun _ => .pure _
    all_goals simp
  | .yield _ value =>
    rw [expr, Ast.Expr.startsAtName, Bool.and_false]
    · exact .next (local_optional value) fun _ => .pure _
    all_goals simp
  | .comprehension _ elements clauses bracket keyed =>
    rw [expr, Ast.Expr.startsAtName, Bool.and_false]
    · refine .next (.isolated ?_) fun _ => .pure _
      exact .next (local_generators clauses) fun _ => local_exprs elements
    all_goals simp

theorem local_optional {owned : Bool} (e : Option Ast.Expr) :
    Local line owned false (optional index line e) := by
  match e with
  | none =>
    rw [optional]
    exact .pure _
  | some e =>
    rw [optional]
    exact local_expr false e

theorem local_exprs {owned : Bool} (items : List Ast.Expr) :
    Local line owned false (exprs index line items) := by
  match items with
  | [] =>
    rw [exprs]
    exact .pure _
  | e :: rest =>
    rw [exprs]
    exact .next (local_expr false e) fun _ => local_exprs rest

private theorem local_chain {owned : Bool} (tracked : Bool) (value : Value) (trailers : List Ast.Trailer) :
    Local line owned false (chain index line tracked value trailers) := by
  -- An access changes the chain of its side and marks nothing.
  have htrack (f : AccessChain → AccessChain) : Local line owned false
      (trackIf tracked fun tracker => tracker.modifyChain f) := by
    have hlocal : Local line owned (tracked && false)
        (trackIf tracked fun tracker => tracker.modifyChain f) :=
      local_trackIf tracked fun tracker => .modifyChain tracker f
    rwa [Bool.and_false] at hlocal
  match trailers with
  | [] =>
    rw [chain]
    exact .pure _
  | .attribute _ name :: rest =>
    rw [chain]
    split
    · exact local_chain tracked _ rest
    · refine .next (htrack _) fun _ => .next (local_access _ _ _) fun _ => ?_
      exact local_chain tracked _ rest
  | .arguments _ items :: rest =>
    rw [chain]
    refine .next (local_arguments items) fun _ => .next (htrack _) fun _ => ?_
    exact .next (local_call _ _) fun _ => local_chain tracked _ rest
  | .subscripts _ items :: rest =>
    rw [chain]
    refine .next (local_subscripts items) fun _ => .next (htrack _) fun _ => ?_
    exact .next .table fun _ => local_chain tracked _ rest

theorem local_arguments {owned : Bool} (items : List Ast.Argument) :
    Local line owned false (arguments index line items) := by
  match items with
  | [] =>
    rw [arguments]
    exact .pure _
  | ⟨_, _, _, value⟩ :: rest =>
    rw [arguments]
    exact .next (local_optional value) fun _ => .next (local_arguments rest) fun _ => .pure _

theorem local_subscripts {owned : Bool} (items : List Ast.Subscript) :
    Local line owned false (subscripts index line items) := by
  match items with
  | [] =>
    rw [subscripts]
    exact .pure _
  | ⟨_, parts⟩ :: rest =>
    rw [subscripts]
    exact .next (local_exprs parts) fun _ => local_subscripts rest

theorem local_defaults {owned : Bool} (items : List Ast.Parameter) :
    Local line owned false (defaults index line items) := by
  match items with
  | [] =>
    rw [defaults]
    exact .pure _
  | ⟨_, _, _, none, _⟩ :: rest =>
    rw [defaults]
    exact local_defaults rest
  | ⟨_, _, _, some ⟨_, value⟩, _⟩ :: rest =>
    rw [defaults]
    exact .next (local_optional value) fun _ => local_defaults rest

private theorem local_generators (clauses : List Ast.Clause) :
    Local line true false (generators index line clauses) := by
  match clauses with
  | [] =>
    rw [generators]
    exact .pure _
  | .forClause _ target iterable :: rest =>
    rw [generators]
    refine .next (local_optional iterable) fun _ => ?_
    exact .next (local_defineLoopTarget _ _ _) fun _ => local_generators rest
  | .ifClause _ condition :: rest =>
    rw [generators]
    exact .next (local_optional condition) fun _ => local_generators rest

end

theorem local_types {owned : Bool} (items : List (Option Ast.Expr)) :
    Local line owned false (types index line items) := by
  induction items with
  | nil => exact .pure _
  | cons e rest ih => exact .next (local_optional index e) fun _ => .next ih fun _ => .pure _

section Walks

variable {region : Region} (h : region.Has line)
include h

theorem walk_defineLoopTarget (target iterable : Option Ast.Expr) (iterated : Option SymbolType) :
    Walk region (defineLoopTarget line target iterable iterated) :=
  (local_defineLoopTarget target iterable iterated).walk h

/-- The walk of an expression keeps to every region that its line is in. -/
theorem walk_expr (tracked : Bool) (e : Ast.Expr) : Walk region (expr index line tracked e) := by
  have hlocal : Local line false _ (expr index line tracked e) := local_expr index tracked e
  exact hlocal.walk h

theorem walk_optional (e : Option Ast.Expr) : Walk region (optional index line e) := by
  have hlocal : Local line false _ (optional index line e) := local_optional index e
  exact hlocal.walk h

theorem walk_exprs (items : List Ast.Expr) : Walk region (exprs index line items) := by
  have hlocal : Local line false _ (exprs index line items) := local_exprs index items
  exact hlocal.walk h

theorem walk_defaults (items : List Ast.Parameter) : Walk region (defaults index line items) := by
  have hlocal : Local line false _ (defaults index line items) := local_defaults index items
  exact hlocal.walk h

theorem walk_types (items : List (Option Ast.Expr)) : Walk region (types index line items) := by
  have hlocal : Local line false _ (types index line items) := local_types index items
  exact hlocal.walk h

end Walks

@[simp] theorem Value.type_ofName (type : Option SymbolType) (site : Site) : (Value.ofName type site).type = type := by
  unfold ofName
  split <;> rfl

/-- A plain name has the type of the binding that it means. -/
theorem run_optional_name (index : LineIndex) (line : Nat) {value : Option Ast.Expr} {name : String}
    (h : value.bind Ast.Expr.plainName? = some name) (state : State) :
    ∃ site : Site, site.text = name ∧ (optional index line value).run state =
      ((state.table.resolve? name).map fun record => record.binding.type, state.use site) := by
  obtain ⟨e, rfl, hplain⟩ := Option.bind_eq_some_iff.mp h
  cases e with
  | name part =>
    obtain ⟨extent, ident⟩ := part
    obtain ⟨leaf, rfl, rfl⟩ := Option.map_eq_some_iff.mp hplain
    have hrun : (optional index line (some (.name ⟨extent, some leaf⟩))).run state =
        ((Value.ofName ((state.table.resolve? leaf.text).map fun record => record.binding.type)
          (index.leafSite leaf)).type, state.use (index.leafSite leaf)) := by
      rw [optional, expr]
      rfl
    refine ⟨index.leafSite leaf, rfl, ?_⟩
    rw [hrun, Value.type_ofName]
  | _ => cases hplain

end Inference

end QuantumScript
