import QuantumScript.Proofs.Ordering.Expressions
import QuantumScript.Proofs.Seams.Moving
/-!
# Twin walks of assignments

Which names an assignment binds can be seen from its targets alone. So an assignment binds the same names
wherever it stands, whatever types they get.
-/

namespace QuantumScript

namespace Ast.Expr

variable (f : Nat → Nat)

private theorem firstSite_text_move (index other : Text.LineIndex) (extent : Extent) :
    (other.firstSite (extent.move f)).text = (index.firstSite extent).text := by
  obtain ⟨span, first, last⟩ := extent
  cases first <;> rfl

theorem extent_move (e : Expr) : (e.place (.move f)).extent = e.extent.move f := by
  cases e <;> rfl

private theorem startsAtName_place (g : Placing) (e : Expr) : (e.place g).startsAtName = e.startsAtName := by
  match e with
  | .name part => exact Option.isSome_map
  | .chain _ none _ => rfl
  | .chain _ (some atom) _ =>
    cases atom with
    | name part => exact Option.isSome_map
    | _ => rfl
  | .parenthesized _ none => rfl
  | .parenthesized _ (some inner) => exact startsAtName_place g inner
  | .literal _ _ | .binary _ _ _ _ | .unary _ _ _ | .list _ _ | .dictionary _ _ | .conditional _ _
  | .expressionList _ _ | .lambda _ _ _ | .yield _ _ | .comprehension _ _ _ _ _ => rfl

private theorem isMarked_place (g : Placing) (e : Expr) : (e.place g).isMarked = e.isMarked := by
  have hleaves : (e.place g).boundLeaves.isEmpty = e.boundLeaves.isEmpty := by
    rw [boundLeaves_place, List.isEmpty_map]
  have hstarts := e.startsAtName_place g
  cases e with
  | name part => rfl
  | expressionList extent items | list extent items | parenthesized extent inner =>
    exact congrArg not hleaves
  | _ => exact hstarts

private theorem late?_move (index other : Text.LineIndex) (e : Expr) :
    (e.place (.move f)).late? other = e.late? index := by
  rw [late?, late?, isMarked_place, extent_move, firstSite_text_move f index other]

end Ast.Expr

namespace Inference

open Text (LineIndex)

variable (index other : LineIndex) (line place : Nat) (f : Nat → Nat)

private theorem twins_target (g : Ast.Placing) (e : Ast.Expr) :
    Twins false (target index line e) (target other place (e.place g)) := by
  have hleaves := e.boundLeaves_place g
  have hdefine : Twins false (defineTarget e .any line) (defineTarget (e.place g) .any place) :=
    twins_defineTarget line place g e .any .any
  have hother := (twins_expr index other line place g true e).bind fun _ _ => .pure () ()
  cases e with
  | name part => exact .pure () ()
  | expressionList extent items | list extent items | parenthesized extent inner =>
    rw [Ast.Expr.place] at hleaves hdefine ⊢
    unfold target
    dsimp only
    rw [hleaves, List.head?_map]
    generalize List.head? _ = first
    cases first with
    | none => exact hdefine
    | some leaf => exact .bind (.track _ _) fun _ _ => hdefine
  | _ => exact hother

private theorem twins_targets (g : Ast.Placing) (items : List Ast.Expr) :
    Twins false (targets index line items) (targets other place (items.map (Ast.Expr.place g))) := by
  induction items with
  | nil => exact .pure () ()
  | cons first rest ih =>
    refine .bind (.track _ _) fun _ _ => .bind (twins_target index other line place g first) fun _ _ => ?_
    exact .bind (.track _ _) fun _ _ => ih

/-- An assignment is walked to its end with the same names missing, and binds the same names. -/
theorem twins_assignment (owner kin : Option ClassType) (extent : Ast.Extent) (left : List Ast.Expr)
    (value : Ast.Expr) (hint : Option Ast.Holder) :
    Twins true (statement index owner (.expressionStatement extent (left ++ [value]) true false hint))
      (statement other kin
        ((Ast.Statement.expressionStatement extent (left ++ [value]) true false hint).place (.move f))) := by
  have hplace : (Ast.Statement.expressionStatement extent (left ++ [value]) true false hint).place (.move f) =
      .expressionStatement (extent.move f) (left.map (Ast.Expr.place (.move f)) ++ [value.place (.move f)])
        true false (hint.map (Ast.Holder.place (.move f))) := by
    rw [Ast.Statement.place, Ast.placeExprs_eq, List.map_append, Ast.placeHolder_eq]
    rfl
  rw [hplace]
  intro state twin hlike
  obtain ⟨hidle, hother⟩ := hlike.idle rfl
  -- The walk up to the end of the value, then the names that are left.
  have hearly : Twins false (do
      enter (index.firstLine extent)
      targets index (index.firstLine extent) left
      track fun tracker => tracker.begin (index.firstSite value.extent)
      expr index (index.firstLine extent) true value) (do
      enter (other.firstLine (extent.move f))
      targets other (other.firstLine (extent.move f)) (left.map (Ast.Expr.place (.move f)))
      track fun tracker => tracker.begin (other.firstSite (value.place (.move f)).extent)
      expr other (other.firstLine (extent.move f)) true (value.place (.move f))) :=
    .bind (.enter _ _) fun _ _ => .bind (twins_targets index other _ _ _ left) fun _ _ =>
      .bind (.track _ _) fun _ _ => twins_expr index other _ _ _ true value
  obtain ⟨hpast, found, hfound, htwin⟩ :=
    hearly state twin ⟨hlike.left, hlike.right, hlike.outline, fun h => absurd h Bool.false_ne_true⟩
  obtain ⟨type, hrun⟩ := run_assignment index owner extent left value hint state
  obtain ⟨known, hrest⟩ := run_assignment other kin (extent.move f) (left.map (Ast.Expr.place (.move f)))
    (value.place (.move f)) (hint.map (Ast.Holder.place (.move f))) twin
  have hnames : twin.lateNames other (left.map (Ast.Expr.place (.move f))) = state.lateNames index left := by
    rw [State.lateNames, State.lateNames, hidle, hother, List.filterMap_map]
    exact congrArg (List.filterMap · left) (funext fun e => e.late?_move f index other)
  have hbind := Twins.defineAll (state.lateNames index left) type known (index.firstLine extent)
    (other.firstLine (extent.move f)) _ _ hpast
  rw [run_defineAll, run_defineAll] at hbind
  rw [hrun, hrest, hnames]
  obtain ⟨hlater, _⟩ := hbind
  exact ⟨⟨hlater.left, hlater.right, hlater.outline, fun _ => ⟨rfl, rfl⟩⟩, found, hfound, htwin⟩

end Inference

end QuantumScript
