import QuantumScript.Proofs.Binding.Assignments
/-!
# What is tracked between statements

The targets of an assignment are tracked until it ends. So no statement has targets to bind that another
one has left.
-/

namespace QuantumScript

namespace AssignmentTracker

/-- No target waits to be bound. -/
def Idle (tracker : AssignmentTracker) : Prop := tracker.targets = []

theorem Marks.idle {marks : Bool} {tracker later : AssignmentTracker} (h : tracker.Marks marks later)
    (hidle : tracker.Idle) : later.Idle := by
  obtain ⟨f, rfl, _⟩ := h
  obtain ⟨pending, targets⟩ := tracker
  cases pending <;> exact hidle

end AssignmentTracker

namespace Inference

open Text (LineIndex)

/-- The part of a walk leaves no targets over. -/
def Idles {α : Type} (part : Inference α) : Prop :=
  ∀ state : State, state.tracker.Idle → (part.run state).2.tracker.Idle

namespace Idles

theorem pure {α : Type} (value : α) : Idles (pure value) := fun _ hidle => hidle

theorem bind {α β : Type} {first : Inference α} {next : α → Inference β} (hfirst : Idles first)
    (hnext : ∀ value, Idles (next value)) : Idles (first >>= next) :=
  fun state hidle => hnext _ _ (hfirst state hidle)

theorem table : Idles table := fun _ hidle => hidle

theorem modifyTable (f : SymbolTable → SymbolTable) : Idles (modifyTable f) := fun _ hidle => hidle

theorem defineAll (names : List String) (type : SymbolType) (line : Nat) :
    Idles (defineAll names type line) := by
  intro state hidle
  rw [run_defineAll]
  exact hidle

theorem within {name : String} {opened closed : Nat} {body : Inference Unit} (hbody : Idles body) :
    Idles (within name opened closed body) := by
  intro state hidle
  rw [run_within, State.tracker_close]
  exact hbody _ hidle

theorem forM {α : Type} {f : α → Inference PUnit} {items : List α} (h : ∀ item, Idles (f item)) :
    Idles (items.forM f) := by
  induction items with
  | nil => exact .pure _
  | cons item rest ih => exact .bind (h item) fun _ => ih

end Idles

/-- Expressions track the side that is being walked only. -/
theorem Local.idles {line : Nat} {marks : Bool} {α : Type} {part : Inference α}
    (h : Local line false marks part) : Idles part := fun state hidle =>
  (h.stays_self state).tracker.idle hidle

section Parts

variable (index : LineIndex) (line : Nat)

theorem idles_optional (e : Option Ast.Expr) : Idles (optional index line e) := by
  have hlocal : Local line false false (optional index line e) := local_optional index e
  exact hlocal.idles

theorem idles_exprs (items : List Ast.Expr) : Idles (exprs index line items) := by
  have hlocal : Local line false false (exprs index line items) := local_exprs index items
  exact hlocal.idles

private theorem idles_hinted (hint : Option Ast.Holder) : Idles (hinted hint) :=
  .bind .table fun _ => .pure _

private theorem idles_defineLoopTarget (target iterable : Option Ast.Expr) (iterated : Option SymbolType) :
    Idles (defineLoopTarget line target iterable iterated) := by
  unfold defineLoopTarget
  split
  · exact .pure _
  · exact .bind .table fun _ => .defineAll _ _ _

private theorem idles_assignment (hint : Option SymbolType) (left : List Ast.Expr) (value : Ast.Expr) :
    Idles (assignment index line hint left value) := by
  intro state _
  unfold assignment
  rw [run_bind, run_bind, run_bind, run_bind]
  split
  · rfl
  · rw [run_bind, run_defineAll]
    rfl

private theorem idles_expressions (items : List Ast.Expr) (assigns augments : Bool) (hint : Option Ast.Holder) :
    Idles (expressions index line items assigns augments hint) := by
  unfold expressions
  split
  · exact idles_exprs index line items
  refine .bind (idles_hinted hint) fun hint => ?_
  split
  · split
    · exact idles_assignment index line hint _ _
    · exact .pure _
  · split
    · exact .forM fun item => .defineAll _ _ _
    · exact idles_exprs index line items

private theorem idles_parameters (owner : Option ClassType) (items : List Ast.Parameter) :
    Idles (parameters line owner items) := by
  have hdefine (name : String) (type : SymbolType) : Idles (define name type line) := .modifyTable _
  induction items generalizing owner with
  | nil => exact .pure _
  | cons parameter rest ih =>
    unfold parameters
    split
    · split
      · split
        · exact .bind (idles_hinted _) fun _ => .bind (hdefine _ _) fun _ => ih none
        · exact .bind (hdefine _ _) fun _ => ih none
      · exact .bind (idles_hinted _) fun _ => .bind (hdefine _ _) fun _ => ih none
    · exact ih none

private theorem idles_caughtName (name : Option Ast.Name) (caught : Option SymbolType) :
    Idles (caughtName line name caught) := by
  unfold caughtName
  split
  · exact .modifyTable _
  · exact .pure _

private theorem idles_withItems (items : List Ast.WithItem) : Idles (withItems index line items) := by
  induction items with
  | nil => exact .pure _
  | cons item rest ih =>
    refine .bind (idles_optional index line item.value) fun _ => ?_
    split
    · exact .bind (.defineAll _ _ _) fun _ => ih
    · exact ih

end Parts

section Statements

variable (index : LineIndex)

mutual

/-- No statement leaves targets over for the next one. -/
theorem idles_statement (owner : Option ClassType) (s : Ast.Statement) :
    Idles (statement index owner s) := by
  have henter (line : Nat) : Idles (enter line) := .modifyTable _
  match s with
  | .expressionStatement _ items assigns augments hint =>
    rw [statement]
    exact .bind (henter _) fun _ => idles_expressions index _ items assigns augments hint
  | .passStatement _ | .breakStatement _ | .continueStatement _ | .globalStatement _ _ _ =>
    rw [statement]
    exact henter _
  | .returnStatement _ value | .delStatement _ value =>
    rw [statement]
    exact .bind (henter _) fun _ => .bind (idles_optional index _ value) fun _ => .pure _
  | .importStatement _ _ | .fromImportStatement _ _ _ _ =>
    rw [statement]
    exact .bind (henter _) fun _ => .modifyTable _
  | .raiseStatement _ items | .assertStatement _ items =>
    rw [statement]
    exact .bind (henter _) fun _ => idles_exprs index _ items
  | .function _ _ _ items _ body =>
    rw [statement]
    refine .bind (henter _) fun _ => .bind (idles_exprs index _ _) fun _ => ?_
    split
    · exact .pure _
    · refine .bind (local_defaults index _).idles fun _ => .bind (.modifyTable _) fun _ => .within ?_
      exact .bind (idles_parameters _ owner _) fun _ => idles_suite none body
  | .classDefinition _ _ _ _ body =>
    rw [statement]
    refine .bind (henter _) fun _ => .bind (idles_exprs index _ _) fun _ => ?_
    refine .bind (local_types index _).idles fun _ => ?_
    split
    · exact .pure _
    · exact .bind (.modifyTable _) fun _ => .within (idles_suite _ body)
  | .ifStatement _ condition body others otherwise =>
    rw [statement]
    refine .bind (henter _) fun _ => .bind (idles_optional index _ condition) fun _ => ?_
    refine .bind (idles_suite owner body) fun _ => ?_
    exact .bind (idles_branches _ owner others) fun _ => idles_block owner otherwise
  | .whileStatement _ condition body otherwise =>
    rw [statement]
    refine .bind (henter _) fun _ => .bind (idles_optional index _ condition) fun _ => ?_
    exact .bind (idles_suite owner body) fun _ => idles_block owner otherwise
  | .forStatement _ target iterable body otherwise =>
    rw [statement]
    refine .bind (henter _) fun _ => .bind (idles_optional index _ iterable) fun _ => ?_
    refine .bind (idles_defineLoopTarget _ _ _ _) fun _ => ?_
    exact .bind (idles_suite owner body) fun _ => idles_block owner otherwise
  | .withStatement _ items body =>
    rw [statement]
    refine .bind (henter _) fun _ => .bind (idles_withItems index _ items) fun _ => ?_
    exact idles_suite owner body
  | .tryStatement _ body caught otherwise cleanup =>
    rw [statement]
    refine .bind (henter _) fun _ => .bind (idles_suite owner body) fun _ => ?_
    refine .bind (idles_handlers owner caught) fun _ => ?_
    exact .bind (idles_block owner otherwise) fun _ => idles_block owner cleanup

private theorem idles_statements (owner : Option ClassType) (items : List Ast.Statement) :
    Idles (statements index owner items) := by
  match items with
  | [] =>
    rw [statements]
    exact .pure _
  | first :: rest =>
    rw [statements]
    exact .bind (idles_statement owner first) fun _ => idles_statements owner rest

private theorem idles_suite (owner : Option ClassType) (body : Option Ast.Suite) :
    Idles (suite index owner body) := by
  match body with
  | none =>
    rw [suite]
    exact .pure _
  | some ⟨_, items⟩ =>
    rw [suite]
    exact idles_statements owner items

private theorem idles_branches (line : Nat) (owner : Option ClassType) (items : List Ast.Branch) :
    Idles (branches index line owner items) := by
  match items with
  | [] =>
    rw [branches]
    exact .pure _
  | ⟨_, condition, body⟩ :: rest =>
    rw [branches]
    refine .bind (idles_optional index line condition) fun _ => ?_
    exact .bind (idles_suite owner body) fun _ => idles_branches line owner rest

private theorem idles_handlers (owner : Option ClassType) (items : List Ast.Handler) :
    Idles (handlers index owner items) := by
  match items with
  | [] =>
    rw [handlers]
    exact .pure _
  | ⟨_, caught, name, body⟩ :: rest =>
    rw [handlers]
    refine .bind (.modifyTable _) fun _ => .bind (idles_optional index _ caught) fun _ => ?_
    refine .bind (idles_caughtName _ name _) fun _ => ?_
    exact .bind (idles_suite owner body) fun _ => idles_handlers owner rest

private theorem idles_block (owner : Option ClassType) (otherwise : Option Ast.Block) :
    Idles (block index owner otherwise) := by
  match otherwise with
  | none =>
    rw [block]
    exact .pure _
  | some ⟨_, body⟩ =>
    rw [block]
    exact idles_suite owner body

end

end Statements

end Inference

end QuantumScript
