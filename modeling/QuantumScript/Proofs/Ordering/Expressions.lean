import QuantumScript.Proofs.Ordering.Twins
import QuantumScript.Proofs.Reading.Placing
/-!
# Twin walks of expressions

An expression that stands elsewhere is the same but for its places, and its walk is a twin.
-/

namespace QuantumScript

namespace Ast

variable (g : Placing)

@[simp] theorem Name.text_place (name : Name) : (name.place g).text = name.text := by
  obtain ⟨extent, ident⟩ := name
  cases ident <;> rfl

@[simp] theorem Name.bind_text_place (name : Option Name) :
    (name.map (Name.place g)).bind Name.text = name.bind Name.text := by
  cases name with
  | none => rfl
  | some name => exact name.text_place g

@[simp] theorem Parameter.text_place (parameter : Parameter) : (parameter.place g).text = parameter.text := by
  obtain ⟨extent, name, hint, default, variadic⟩ := parameter
  exact Name.bind_text_place g name

theorem parametersOf_place (parameters : Option Parameters) :
    parametersOf (parameters.map (Parameters.place g)) = (parametersOf parameters).map (Parameter.place g) := by
  cases parameters with
  | none => rfl
  | some parameters =>
    obtain ⟨extent, items⟩ := parameters
    exact placeItems_eq g items

mutual

/-- The names that a target binds do not depend on where it stands. -/
theorem Expr.boundLeaves_place (e : Expr) : (e.place g).boundLeaves = e.boundLeaves.map (Leaf.place g) := by
  cases e with
  | name part =>
    obtain ⟨extent, ident⟩ := part
    cases ident <;> rfl
  | expressionList extent items | list extent items => exact Expr.boundLeavesOf_place items
  | parenthesized extent inner =>
    cases inner with
    | none => rfl
    | some inner => exact Expr.boundLeaves_place inner
  | _ => rfl

private theorem Expr.boundLeavesOf_place (items : List Expr) :
    boundLeavesOf (placeExprs g items) = (boundLeavesOf items).map (Leaf.place g) := by
  cases items with
  | nil => rfl
  | cons e rest =>
    rw [placeExprs, boundLeavesOf, boundLeavesOf, Expr.boundLeaves_place e, Expr.boundLeavesOf_place rest,
      List.map_append]

end

private theorem Expr.boundNames_place (e : Expr) :
    (e.place g).boundLeaves.map Leaf.text = e.boundLeaves.map Leaf.text := by
  rw [e.boundLeaves_place, List.map_map]
  rfl

/-- The expression is a name. -/
def Expr.isName : Expr → Bool
  | .name _ => true
  | _ => false

theorem Expr.isName_iff {e : Expr} : e.isName = true ↔ ∃ part, e = .name part := by
  cases e <;> simp [isName]

private theorem Expr.isName_place (e : Expr) : (e.place g).isName = e.isName := by
  cases e <;> rfl

end Ast

namespace Inference

open Text (LineIndex)

variable (index other : LineIndex) (line place : Nat) (g : Ast.Placing)

private theorem twins_trackIf (tracked : Bool) (f g : AssignmentTracker → AssignmentTracker) :
    Twins false (trackIf tracked f) (trackIf tracked g) := by
  cases tracked with
  | true => exact .track f g
  | false => exact .pure () ()

theorem twins_defineTarget {idle : Bool} (e : Ast.Expr) (type known : SymbolType) :
    Twins idle (defineTarget e type line) (defineTarget (e.place g) known place) := by
  rw [defineTarget, defineTarget, e.boundNames_place]
  exact .defineAll _ type known line place

theorem twins_defineLoopTarget {idle : Bool} (target iterable : Option Ast.Expr)
    (iterated known : Option SymbolType) :
    Twins idle (defineLoopTarget line target iterable iterated)
      (defineLoopTarget place (Ast.placeOptional g target) (Ast.placeOptional g iterable) known) := by
  cases target with
  | none => exact .pure () ()
  | some target => exact .bind .table fun _ _ => twins_defineTarget line place g target _ _

private theorem twins_named {α β : Type} (tracked : Bool) (part : Ast.Name) {next : Option Value → Inference α}
    {rest : Option Value → Inference β} (hmissing : Twins false (next none) (rest none))
    (hfound : ∀ value known, Twins false (next (some value)) (rest (some known))) :
    Twins false (name index tracked part >>= next) (name other tracked (part.place g) >>= rest) := by
  obtain ⟨extent, ident⟩ := part
  cases ident with
  | none => exact hmissing
  | some leaf =>
    have hresolve : Twins false (resolve (index.leafSite leaf)) (resolve (other.leafSite (leaf.place g))) :=
      .resolve rfl
    have hlookup := hresolve.bind fun type known =>
      hfound (.ofName type (index.leafSite leaf)) (.ofName known (other.leafSite (leaf.place g)))
    exact (twins_trackIf tracked (fun tracker => tracker.variableAt (index.leafSite leaf))
      fun tracker => tracker.variableAt (other.leafSite (leaf.place g))).bind fun _ _ => hlookup

private theorem expr_chain (tracked : Bool) {extent : Ast.Extent} {atom : Ast.Expr}
    (trailers : List Ast.Trailer)
    (h : atom.isName = false) :
    expr index line tracked (.chain extent (some atom) trailers) =
      expr index line false atom >>= fun type => chain index line tracked (.ofType type) trailers := by
  rw [expr]
  rintro part rfl
  cases h

mutual

/-- The walk of an expression finds the same names missing wherever the expression stands. -/
theorem twins_expr (tracked : Bool) (e : Ast.Expr) :
    Twins false (expr index line tracked e) (expr other place tracked (e.place g)) := by
  match e with
  | .name part =>
    rw [Ast.Expr.place, expr, expr]
    exact twins_named index other g tracked part (.pure _ _) fun _ _ => .pure _ _
  | .literal _ tokens =>
    rw [Ast.Expr.place, expr, expr]
    exact .pure _ _
  | .chain _ none _ =>
    rw [Ast.Expr.place, Ast.placeOptional, expr, expr]
    exact .pure _ _
  | .chain _ (some atom) trailers =>
    have hatom := twins_expr false atom
    rw [Ast.Expr.place, Ast.placeOptional]
    cases hname : atom.isName with
    | true =>
      obtain ⟨part, rfl⟩ := Ast.Expr.isName_iff.mp hname
      rw [Ast.Expr.place, expr, expr]
      exact twins_named index other g tracked part (.pure _ _) fun _ _ => twins_chain tracked _ _ trailers
    | false =>
      rw [expr_chain index line tracked trailers hname,
        expr_chain other place tracked _ (Ast.Expr.isName_place g atom ▸ hname)]
      exact .bind hatom fun _ _ => twins_chain tracked _ _ trailers
  | .binary _ operator left right =>
    rw [Ast.Expr.place, expr, expr]
    refine .bind (twins_optional left) fun _ _ => .bind (twins_optional right) fun _ _ => ?_
    split <;> split <;> exact .pure _ _
  | .unary _ operator operand =>
    rw [Ast.Expr.place, expr, expr]
    exact .bind (twins_optional operand) fun _ _ => .pure _ _
  | .parenthesized _ none =>
    rw [Ast.Expr.place, Ast.placeOptional, expr, expr]
    exact .pure _ _
  | .parenthesized _ (some inner) =>
    rw [Ast.Expr.place, Ast.placeOptional, expr, expr]
    exact twins_expr tracked inner
  | .list _ items | .dictionary _ items | .conditional _ items | .expressionList _ items =>
    rw [Ast.Expr.place, expr, expr]
    exact .bind (twins_exprs items) fun _ _ => .pure _ _
  | .lambda _ parameters body =>
    have hbody : Twins false (do
        defineAll ((Ast.parametersOf parameters).filterMap Ast.Parameter.text) .any line
        let _ ← optional index line body) (do
        defineAll ((Ast.parametersOf (Ast.placeParameters g parameters)).filterMap Ast.Parameter.text) .any place
        let _ ← optional other place (Ast.placeOptional g body)) := by
      rw [Ast.placeParameters_eq, Ast.parametersOf_place, List.filterMap_map]
      simp only [Function.comp_def, Ast.Parameter.text_place]
      exact .bind (.defineAll _ _ _ _ _) fun _ _ => .bind (twins_optional body) fun _ _ => .pure _ _
    cases parameters with
    | none =>
      rw [Ast.Expr.place, Ast.placeParameters, expr, expr]
      exact .bind (.isolated hbody) fun _ _ => .pure _ _
    | some parameters =>
      obtain ⟨_, items⟩ := parameters
      rw [Ast.Expr.place, Ast.placeParameters, Ast.Parameters.place, expr, expr]
      exact .bind (twins_defaults items) fun _ _ => .bind (.isolated hbody) fun _ _ => .pure _ _
  | .yield _ value =>
    rw [Ast.Expr.place, expr, expr]
    exact .bind (twins_optional value) fun _ _ => .pure _ _
  | .comprehension _ elements clauses bracket keyed =>
    rw [Ast.Expr.place, expr, expr]
    refine .bind (.isolated ?_) fun _ _ => .pure _ _
    exact .bind (twins_generators clauses) fun _ _ => twins_exprs elements

theorem twins_optional (e : Option Ast.Expr) :
    Twins false (optional index line e) (optional other place (Ast.placeOptional g e)) := by
  match e with
  | none =>
    rw [Ast.placeOptional, optional, optional]
    exact .pure _ _
  | some e =>
    rw [Ast.placeOptional, optional, optional]
    exact twins_expr false e

theorem twins_exprs (items : List Ast.Expr) :
    Twins false (exprs index line items) (exprs other place (Ast.placeExprs g items)) := by
  match items with
  | [] =>
    rw [Ast.placeExprs, exprs, exprs]
    exact .pure _ _
  | e :: rest =>
    rw [Ast.placeExprs, exprs, exprs]
    exact .bind (twins_expr false e) fun _ _ => twins_exprs rest

private theorem twins_chain (tracked : Bool) (value known : Value) (trailers : List Ast.Trailer) :
    Twins false (chain index line tracked value trailers)
      (chain other place tracked known (Ast.placeTrailers g trailers)) := by
  match trailers with
  | [] =>
    rw [Ast.placeTrailers, chain, chain]
    exact .pure _ _
  | .attribute _ name :: rest =>
    rw [Ast.placeTrailers, Ast.Trailer.place, chain, chain]
    have hname : (name.map (Ast.Name.place g)).bind Ast.Name.ident =
        (name.bind Ast.Name.ident).map (Ast.Leaf.place g) := by
      cases name <;> rfl
    rw [hname]
    cases name.bind Ast.Name.ident with
    | none => exact twins_chain tracked _ _ rest
    | some leaf =>
      refine .bind (twins_trackIf tracked _ _) fun _ _ => ?_
      exact .bind (.of_quiet (.access _ _ _) (.access _ _ _)) fun _ _ => twins_chain tracked _ _ rest
  | .arguments _ items :: rest =>
    rw [Ast.placeTrailers, Ast.Trailer.place, chain, chain]
    refine .bind (twins_arguments items) fun _ _ => .bind (twins_trackIf tracked _ _) fun _ _ => ?_
    exact .bind (.of_quiet (.call _ _) (.call _ _)) fun _ _ => twins_chain tracked _ _ rest
  | .subscripts _ items :: rest =>
    rw [Ast.placeTrailers, Ast.Trailer.place, chain, chain]
    refine .bind (twins_subscripts items) fun _ _ => .bind (twins_trackIf tracked _ _) fun _ _ => ?_
    exact .bind .table fun _ _ => twins_chain tracked _ _ rest

private theorem twins_arguments (items : List Ast.Argument) :
    Twins false (arguments index line items) (arguments other place (Ast.placeArguments g items)) := by
  match items with
  | [] =>
    rw [Ast.placeArguments, arguments, arguments]
    exact .pure _ _
  | ⟨_, _, _, value⟩ :: rest =>
    rw [Ast.placeArguments, Ast.Argument.place, arguments, arguments]
    exact .bind (twins_optional value) fun _ _ => .bind (twins_arguments rest) fun _ _ => .pure _ _

private theorem twins_subscripts (items : List Ast.Subscript) :
    Twins false (subscripts index line items) (subscripts other place (Ast.placeSubscripts g items)) := by
  match items with
  | [] =>
    rw [Ast.placeSubscripts, subscripts, subscripts]
    exact .pure _ _
  | ⟨_, parts⟩ :: rest =>
    rw [Ast.placeSubscripts, Ast.Subscript.place, subscripts, subscripts]
    exact .bind (twins_exprs parts) fun _ _ => twins_subscripts rest

theorem twins_defaults (items : List Ast.Parameter) :
    Twins false (defaults index line items) (defaults other place (Ast.placeItems g items)) := by
  match items with
  | [] =>
    rw [Ast.placeItems, defaults, defaults]
    exact .pure _ _
  | ⟨_, _, _, none, _⟩ :: rest =>
    rw [Ast.placeItems, Ast.Parameter.place, Ast.placeHolder, defaults, defaults]
    exact twins_defaults rest
  | ⟨_, _, _, some ⟨_, value⟩, _⟩ :: rest =>
    rw [Ast.placeItems, Ast.Parameter.place, Ast.placeHolder, Ast.Holder.place, defaults, defaults]
    exact .bind (twins_optional value) fun _ _ => twins_defaults rest

private theorem twins_generators (clauses : List Ast.Clause) :
    Twins false (generators index line clauses) (generators other place (Ast.placeClauses g clauses)) := by
  match clauses with
  | [] =>
    rw [Ast.placeClauses, generators, generators]
    exact .pure _ _
  | .forClause _ target iterable :: rest =>
    rw [Ast.placeClauses, Ast.Clause.place, generators, generators]
    refine .bind (twins_optional iterable) fun _ _ => ?_
    exact .bind (twins_defineLoopTarget line place g target iterable _ _) fun _ _ => twins_generators rest
  | .ifClause _ condition :: rest =>
    rw [Ast.placeClauses, Ast.Clause.place, generators, generators]
    exact .bind (twins_optional condition) fun _ _ => twins_generators rest

end

theorem twins_types (items : List (Option Ast.Expr)) :
    Twins false (types index line items) (types other place (items.map (Ast.placeOptional g))) := by
  induction items with
  | nil => exact .pure _ _
  | cons e rest ih =>
    exact .bind (twins_optional index other line place g e) fun _ _ => .bind ih fun _ _ => .pure _ _

end Inference

end QuantumScript
