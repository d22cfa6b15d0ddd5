import QuantumScript.Analysis
import QuantumScript.Proofs.Locating.Booked
import QuantumScript.Proofs.Locating.Reports
/-!
# Places of diagnostics

Whatever the source, every diagnostic of its analysis has a span that can be cut out of the source and a
position that tells where the span starts. Where it is about a name, this name stands there.
-/

namespace QuantumScript

open Ast Text

namespace Ast

variable {mark : Extent → Prop}

theorem markedExprs_iff {items : List Expr} : MarkedExprs mark items ↔ ∀ e ∈ items, e.Marked mark := by
  induction items with
  | nil => simp [MarkedExprs]
  | cons e rest ih => simp [MarkedExprs, ih]

private theorem hint_of_markedParameters {items : List Parameter} (h : MarkedParameters mark items) :
    ∀ parameter ∈ items, MarkedHolder mark parameter.hint := by
  induction items with
  | nil => exact nofun
  | cons parameter rest ih =>
    obtain ⟨_, _, hint, value, _⟩ := parameter
    exact List.forall_mem_cons.mpr ⟨h.1, ih h.2.2⟩

private theorem value_of_markedArguments {items : List Argument} (h : MarkedArguments mark items) :
    ∀ e ∈ items.map Argument.value, MarkedOptional mark e := by
  induction items with
  | nil => exact nofun
  | cons argument rest ih =>
    obtain ⟨_, _, _, value⟩ := argument
    exact List.forall_mem_cons.mpr ⟨h.2.1, ih h.2.2⟩

private theorem markedExprs_decorators {items : List Holder}
    (h : ∀ item ∈ items, MarkedHolder mark (some item)) :
    MarkedExprs mark (items.filterMap Holder.value) := by
  refine markedExprs_iff.mpr fun e hmem => ?_
  obtain ⟨⟨extent, value⟩, hitem, hvalue⟩ := List.mem_filterMap.mp hmem
  obtain rfl : value = some e := hvalue
  exact h _ hitem

private theorem Expr.mark_of_typeName {e : Expr} (h : e.Marked mark) {typeName : String}
    (hname : e.typeName? = some typeName) : mark e.extent := by
  cases e with
  | name part => exact h.1
  | literal extent tokens => exact h
  | chain extent atom trailers => exact h.1
  | _ => simp [typeName?] at hname

section Hints

variable {text : List Char}

private theorem located_hint {holder : Holder} (h : MarkedHolder (Extent.Clear text) (some holder)) :
    ∀ hint ∈ holder.hint? (.ofText text), hint.site.Located text := by
  intro hint hmem
  obtain ⟨extent, value⟩ := holder
  obtain ⟨e, rfl, hhint⟩ := Option.bind_eq_some_iff.mp hmem
  obtain ⟨typeName, hname, rfl⟩ := Option.map_eq_some_iff.mp hhint
  exact (Expr.mark_of_typeName h hname).shows

private theorem located_bind {holder : Option Holder} (h : MarkedHolder (Extent.Clear text) holder) :
    ∀ hint ∈ holder.bind (Holder.hint? (.ofText text)), hint.site.Located text := by
  cases holder with
  | none => exact nofun
  | some holder => exact located_hint h

private theorem Parameter.withoutReceiver_subset (isMethod : Bool) (items : List Parameter) :
    withoutReceiver isMethod items ⊆ items := by
  cases items with
  | nil => exact List.Subset.refl _
  | cons first rest =>
    rw [withoutReceiver]
    split
    · exact List.subset_cons_self first rest
    · exact List.Subset.refl _

private theorem located_signatureHints (isMethod : Bool) (name : Option Name) {parameters : Option Parameters}
    (hparameters : MarkedParameters (Extent.Clear text) (parametersOf parameters))
    {returns : Option Holder} (hreturns : MarkedHolder (Extent.Clear text) returns) :
    ∀ hint ∈ signatureHints (.ofText text) isMethod name parameters returns, hint.site.Located text := by
  unfold signatureHints
  split
  · refine List.forall_mem_append.mpr ⟨fun hint hmem => ?_, fun hint hmem => ?_⟩
    · obtain ⟨parameter, hparameter, hhint⟩ := List.mem_filterMap.mp hmem
      have hitem := Parameter.withoutReceiver_subset _ _ (List.mem_filter.mp hparameter).1
      exact located_bind (hint_of_markedParameters hparameters parameter hitem) hint hhint
    · exact located_bind hreturns hint (Option.mem_toList.mp hmem)
  · exact nofun

private theorem located_methodHints {s : Statement} (h : s.Marked (Extent.Clear text)) :
    ∀ hint ∈ s.methodHints (.ofText text), hint.site.Located text := by
  cases s with
  | function => exact located_signatureHints _ _ h.2.1 h.2.2.1
  | _ => exact nofun

theorem markedStatements_iff {items : List Statement} :
    MarkedStatements mark items ↔ ∀ s ∈ items, s.Marked mark := by
  induction items with
  | nil => simp [MarkedStatements]
  | cons s rest ih => simp [MarkedStatements, ih]

private theorem marked_statementsOf {body : Option Suite} (h : MarkedSuite mark body) :
    ∀ s ∈ statementsOf body, s.Marked mark := by
  cases body with
  | none => exact nofun
  | some body =>
    obtain ⟨_, items⟩ := body
    exact markedStatements_iff.mp h

private theorem located_hints {s : Statement} (h : s.Marked (Extent.Clear text)) :
    ∀ hint ∈ s.hints (.ofText text), hint.site.Located text := by
  cases s with
  | classDefinition extent decorators name bases body =>
    intro hint hmem
    simp only [Statement.hints, classHints] at hmem
    split at hmem
    · obtain ⟨s, hs, hhint⟩ := List.mem_flatMap.mp hmem
      exact located_methodHints (marked_statementsOf h.2.2 s hs) hint hhint
    · cases hmem
  | function => exact located_signatureHints _ _ h.2.1 h.2.2.1
  | expressionStatement extent items assigns augments hint =>
    exact fun own hmem => located_bind h.2 own (Option.mem_toList.mp hmem)
  | _ => exact nofun

end Hints

end Ast

/-- The warnings of hoisting stand at hints. -/
theorem Hoisting.located_warnings {text : List Char} {script : Script}
    (h : MarkedStatements (Extent.Clear text) script.statements) (table : SymbolTable) :
    ∀ diagnostic ∈ Hoisting.warnings (.ofText text) script table, diagnostic.Located text := by
  intro diagnostic hmem
  obtain ⟨hint, hhint, hproblem⟩ := List.mem_filterMap.mp hmem
  obtain ⟨s, hs, hown⟩ := List.mem_flatMap.mp hhint
  have hsite := located_hints (markedStatements_iff.mp h s hs) hint hown
  unfold hintProblem? at hproblem
  split at hproblem
  · cases hproblem
  · cases hproblem
    exact Diagnostic.located_ofFinding hsite rfl

namespace Inference

variable {text : List Char} (line : Nat)

private theorem locating_hinted (hint : Option Holder) : Locating text (hinted hint) :=
  locating_table.then fun _ => locating_pure _

private theorem locating_target {e : Expr} (h : e.Marked (Extent.Clear text)) :
    Locating text (target (.ofText text) line e) := by
  unfold target
  cases e with
  | name part => exact locating_pure ()
  | expressionList _ _ | list _ _ | parenthesized _ _ =>
    dsimp only
    split
    · exact (locating_track _).then fun _ => locating_defineTarget _ _ _
    · exact (locating_pure ()).then fun _ => locating_defineTarget _ _ _
  | _ => exact (locating_expr line _ h true).then fun _ => locating_pure _

private theorem locating_targets {items : List Expr} (h : ∀ e ∈ items, e.Marked (Extent.Clear text)) :
    Locating text (targets (.ofText text) line items) := by
  induction items with
  | nil => exact locating_pure ()
  | cons first rest ih =>
    obtain ⟨hfirst, hrest⟩ := List.forall_mem_cons.mp h
    refine (locating_track _).then fun _ => (locating_target line hfirst).then fun _ => ?_
    exact (locating_track _).then fun _ => ih hrest

private theorem locating_assignment (hint : Option SymbolType) {left : List Expr}
    (hleft : ∀ e ∈ left, e.Marked (Extent.Clear text)) {value : Expr}
    (hvalue : value.Marked (Extent.Clear text)) :
    Locating text (assignment (.ofText text) line hint left value) := by
  refine (locating_targets line hleft).then fun _ => (locating_track _).then fun _ => ?_
  refine (locating_expr line value hvalue true).then fun walked => locating_finish.then fun finished => ?_
  cases finished with
  | none => exact locating_pure ()
  | some finished => exact locating_table.then fun _ => locating_defineAll _ _ _

private theorem locating_expressions {items : List Expr} (h : MarkedExprs (Extent.Clear text) items)
    (assigns augments : Bool) (hint : Option Holder) :
    Locating text (expressions (.ofText text) line items assigns augments hint) := by
  have hitems := markedExprs_iff.mp h
  unfold expressions
  split
  · exact locating_exprs line items h
  · refine (locating_hinted hint).then fun known => ?_
    split
    · split
      · rename_i value hlast
        refine locating_assignment line known (fun e hmem => ?_) (hitems value (List.mem_of_getLast? hlast))
        exact hitems e (List.dropLast_subset items hmem)
      · exact locating_pure ()
    · split
      · exact locating_forM (fun item => locating_defineTarget item _ line) items
      · exact locating_exprs line items h

private theorem locating_parameters (owner : Option ClassType) (items : List Parameter) :
    Locating text (parameters line owner items) := by
  induction items generalizing owner with
  | nil => exact locating_pure ()
  | cons parameter rest ih =>
    unfold parameters
    split
    · split
      · split
        · exact (locating_hinted _).then fun _ => (locating_define _ _ _).then fun _ => ih none
        · exact (locating_define _ _ _).then fun _ => ih none
      · exact (locating_hinted _).then fun _ => (locating_define _ _ _).then fun _ => ih none
    · exact ih none

private theorem locating_caughtName (part : Option Name) (caught : Option SymbolType) :
    Locating text (caughtName line part caught) := by
  unfold caughtName
  split
  · exact locating_define _ _ _
  · exact locating_pure ()

private theorem locating_withItems {items : List WithItem}
    (h : ∀ item ∈ items, MarkedWithItem (Extent.Clear text) item) :
    Locating text (withItems (.ofText text) line items) := by
  induction items with
  | nil => exact locating_pure ()
  | cons item rest ih =>
    obtain ⟨hitem, hrest⟩ := List.forall_mem_cons.mp h
    refine (locating_optional line item.value hitem.1).then fun _ => ?_
    split
    · exact (locating_defineTarget _ _ _).then fun _ => ih hrest
    · exact ih hrest

mutual

private theorem locating_statement (owner : Option ClassType) (s : Statement)
    (h : s.Marked (Extent.Clear text)) : Locating text (statement (.ofText text) owner s) := by
  match s with
  | .expressionStatement _ items assigns augments hint =>
    rw [statement]
    exact (locating_enter _).then fun _ => locating_expressions _ h.1 assigns augments hint
  | .passStatement _ | .breakStatement _ | .continueStatement _ | .globalStatement _ _ _ =>
    rw [statement]
    exact locating_enter _
  | .returnStatement _ value | .delStatement _ value =>
    rw [statement]
    exact (locating_enter _).then fun _ => (locating_optional _ value h).then fun _ => locating_pure _
  | .importStatement _ _ | .fromImportStatement _ _ _ _ =>
    rw [statement]
    exact (locating_enter _).then fun _ => locating_modifyTable _
  | .raiseStatement _ items | .assertStatement _ items =>
    rw [statement]
    exact (locating_enter _).then fun _ => locating_exprs _ items h
  | .function _ decorated name items returns body =>
    rw [statement]
    refine (locating_enter _).then fun _ => ?_
    refine (locating_exprs _ _ (markedExprs_decorators h.1)).then fun _ => ?_
    split
    · exact locating_pure ()
    · refine (locating_defaults _ _ h.2.1).then fun _ => (locating_define _ _ _).then fun _ => ?_
      refine Locating.within ?_
      exact (locating_parameters _ _ _).then fun _ => locating_suite none body h.2.2.2
  | .classDefinition _ decorated name bases body =>
    rw [statement]
    refine (locating_enter _).then fun _ => ?_
    refine (locating_exprs _ _ (markedExprs_decorators h.1)).then fun _ => ?_
    refine (locating_types _ (value_of_markedArguments h.2.1)).then fun types => ?_
    split
    · exact locating_pure ()
    · exact (locating_define _ _ _).then fun _ => Locating.within (locating_suite _ body h.2.2)
  | .ifStatement _ condition body others otherwise =>
    rw [statement]
    refine (locating_enter _).then fun _ => (locating_optional _ condition h.1).then fun _ => ?_
    refine (locating_suite owner body h.2.1).then fun _ => ?_
    exact (locating_branches _ owner others h.2.2.1).then fun _ => locating_block owner otherwise h.2.2.2
  | .whileStatement _ condition body otherwise =>
    rw [statement]
    refine (locating_enter _).then fun _ => (locating_optional _ condition h.1).then fun _ => ?_
    exact (locating_suite owner body h.2.1).then fun _ => locating_block owner otherwise h.2.2
  | .forStatement _ target iterable body otherwise =>
    rw [statement]
    refine (locating_enter _).then fun _ => (locating_optional _ iterable h.2.1).then fun _ => ?_
    refine (locating_defineLoopTarget _ _ _ _).then fun _ => ?_
    exact (locating_suite owner body h.2.2.1).then fun _ => locating_block owner otherwise h.2.2.2
  | .withStatement _ items body =>
    rw [statement]
    refine (locating_enter _).then fun _ => (locating_withItems _ h.1).then fun _ => ?_
    exact locating_suite owner body h.2
  | .tryStatement _ body caught otherwise cleanup =>
    rw [statement]
    refine (locating_enter _).then fun _ => (locating_suite owner body h.1).then fun _ => ?_
    refine (locating_handlers owner caught h.2.1).then fun _ => ?_
    exact (locating_block owner otherwise h.2.2.1).then fun _ => locating_block owner cleanup h.2.2.2

private theorem locating_statements (owner : Option ClassType) (items : List Statement)
    (h : MarkedStatements (Extent.Clear text) items) :
    Locating text (statements (.ofText text) owner items) := by
  match items with
  | [] =>
    rw [statements]
    exact locating_pure ()
  | first :: rest =>
    rw [statements]
    exact (locating_statement owner first h.1).then fun _ => locating_statements owner rest h.2

private theorem locating_suite (owner : Option ClassType) (body : Option Suite)
    (h : MarkedSuite (Extent.Clear text) body) : Locating text (suite (.ofText text) owner body) := by
  match body with
  | none =>
    rw [suite]
    exact locating_pure ()
  | some ⟨_, items⟩ =>
    rw [suite]
    exact locating_statements owner items h

private theorem locating_branches (line : Nat) (owner : Option ClassType) (items : List Branch)
    (h : MarkedBranches (Extent.Clear text) items) :
    Locating text (branches (.ofText text) line owner items) := by
  match items with
  | [] =>
    rw [branches]
    exact locating_pure ()
  | ⟨_, condition, body⟩ :: rest =>
    rw [branches]
    refine (locating_optional line condition h.1).then fun _ => ?_
    exact (locating_suite owner body h.2.1).then fun _ => locating_branches line owner rest h.2.2

private theorem locating_handlers (owner : Option ClassType) (items : List Handler)
    (h : MarkedHandlers (Extent.Clear text) items) :
    Locating text (handlers (.ofText text) owner items) := by
  match items with
  | [] =>
    rw [handlers]
    exact locating_pure ()
  | ⟨_, caught, name, body⟩ :: rest =>
    rw [handlers]
    refine (locating_enter _).then fun _ => (locating_optional _ caught h.1).then fun _ => ?_
    refine (locating_caughtName _ _ _).then fun _ => (locating_suite owner body h.2.1).then fun _ => ?_
    exact locating_handlers owner rest h.2.2

private theorem locating_block (owner : Option ClassType) (part : Option Block)
    (h : MarkedBlock (Extent.Clear text) part) : Locating text (block (.ofText text) owner part) := by
  match part with
  | none =>
    rw [block]
    exact locating_pure ()
  | some ⟨_, body⟩ =>
    rw [block]
    exact locating_suite owner body h

end

/-- What the walk of a script reports is located. -/
theorem State.located_ofScript {script : Script}
    (h : MarkedStatements (Extent.Clear text) script.statements) (table : SymbolTable) :
    ∀ diagnostic ∈ (State.ofScript (.ofText text) script table).diagnostics, diagnostic.Located text := by
  have hscript : Locating text (Inference.script (.ofText text) script) :=
    (locating_statements none _ h).then fun _ => locating_modifyTable _
  exact (hscript (.start table) nofun).1

end Inference

namespace Analysis

end Analysis

end QuantumScript
