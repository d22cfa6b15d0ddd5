import QuantumScript.Proofs.Mentions.Lookups
/-!
# Lookups of a script

The walk of a script looks up every name that is used in it, once and in the order of mentions. No name
of another role is looked up, save those in declarations.
-/

namespace QuantumScript

open Ast Ast.Expr

namespace Inference

open Text (LineIndex)

variable (index : LineIndex)

private theorem looksUp_enter (line : Nat) : LooksUp (enter line) [] := looksUp_modifyTable _

private theorem looksThrough_pure : LooksThrough index (pure ()) [] := (looksUp_pure ()).through

private theorem decoratorMentions_eq (items : List Holder) :
    decoratorMentions items = exprMentions .used (items.filterMap Holder.value) := by
  induction items with
  | nil => rfl
  | cons item rest ih =>
    obtain ⟨extent, value⟩ := item
    rw [decoratorMentions, List.flatMap_cons, ← decoratorMentions, ih, holderMentions]
    cases value <;> rfl

private theorem looksUp_bases (line : Nat) (items : List Argument) :
    LooksUp (types index line (items.map Argument.value))
      (index.sitesOf .used (argumentMentions .used items)) := by
  have hsites : index.sitesOf .used (argumentMentions .used items) =
      index.sitesOf .used ((items.map Argument.value).flatMap (optionalMentions .used)) := by
    induction items with
    | nil => rfl
    | cons item rest ih =>
      obtain ⟨extent, keyword, unpacked, value⟩ := item
      rw [argumentMentions, List.map_cons, List.flatMap_cons, sitesOf_append, sitesOf_append,
        sitesOf_append, ih, sitesOf_silent index (ofRole_names .other keyword) rfl rfl,
        List.nil_append]
  rw [hsites]
  exact looksUp_types index line _

mutual

private theorem looksThrough_statement (owner : Option ClassType) (s : Statement) :
    LooksThrough index (statement index owner s) s.mentions := by
  match s with
  | .expressionStatement _ items assigns augments hint =>
    rw [statement, Statement.mentions]
    refine .before ?_ (ofRole_holder .other hint) rfl
    exact .next (looksUp_enter _) fun _ => looksThrough_expressions index _ items assigns augments hint
  | .passStatement _ | .breakStatement _ | .continueStatement _ =>
    rw [statement, Statement.mentions]
    exact (looksUp_enter _).through
  | .globalStatement _ names _ =>
    rw [statement, Statement.mentions, ← List.nil_append (names.flatMap _)]
    exact .before (looksUp_enter _).through (ofRole_flatMap (ofRole_name .other) names) rfl
  | .returnStatement _ value | .delStatement _ value =>
    rw [statement, Statement.mentions]
    refine .next (looksUp_enter _) fun _ => ?_
    exact ((looksUp_optional index rfl _ value).before fun _ => looksUp_pure _).through
  | .importStatement _ aliases =>
    rw [statement, Statement.mentions, ← List.nil_append (importMentions _)]
    refine .before ?_ (ofRole_imports aliases) rfl
    exact .next (looksUp_enter _) fun _ => (looksUp_modifyTable _).through
  | .fromImportStatement _ path aliases _ =>
    rw [statement, Statement.mentions, ← List.nil_append (_ ++ importMentions _)]
    refine .before ?_ ((ofRole_flatMap (ofRole_name .other) _).append (ofRole_imports aliases)) rfl
    exact .next (looksUp_enter _) fun _ => (looksUp_modifyTable _).through
  | .raiseStatement _ items | .assertStatement _ items =>
    rw [statement, Statement.mentions]
    exact .next (looksUp_enter _) fun _ => (looksUp_exprs index rfl _ items).through
  | .function _ decorated part items returns body =>
    rw [statement, Statement.mentions, decoratorMentions_eq]
    refine .next (looksUp_enter _) fun _ => .uses (looksUp_exprs index rfl _ _) fun _ => ?_
    unfold signature?
    cases part.bind Name.text with
    | none => exact looksThrough_pure index
    | some name =>
      rw [List.append_assoc, List.append_assoc]
      refine .after ?_ (ofRole_names .other part) rfl
      refine .uses (looksUp_defaults index rfl _ _) fun _ => .after ?_ (ofRole_holder .other returns) rfl
      refine .next (looksUp_define _ _ _) fun _ => .within ?_
      exact .next (looksUp_parameters _ _ _) fun _ => looksThrough_suite none body
  | .classDefinition _ decorated part bases body =>
    rw [statement, Statement.mentions, decoratorMentions_eq, List.append_assoc]
    refine .next (looksUp_enter _) fun _ => .uses (looksUp_exprs index rfl _ _) fun _ => ?_
    refine .uses (looksUp_bases index _ _) fun types => ?_
    unfold classType?
    cases part.bind Name.text with
    | none => exact looksThrough_pure index
    | some name =>
      refine .after ?_ (ofRole_names .other part) rfl
      refine .next (looksUp_define _ _ _) fun _ => .within ?_
      exact looksThrough_suite _ body
  | .ifStatement _ condition body others otherwise =>
    rw [statement, Statement.mentions, List.append_assoc, List.append_assoc]
    refine .next (looksUp_enter _) fun _ => .uses (looksUp_optional index rfl _ condition) fun _ => ?_
    refine (looksThrough_suite owner body).bind fun _ => ?_
    exact (looksThrough_branches _ owner others).bind fun _ => looksThrough_block owner otherwise
  | .whileStatement _ condition body otherwise =>
    rw [statement, Statement.mentions, List.append_assoc]
    refine .next (looksUp_enter _) fun _ => .uses (looksUp_optional index rfl _ condition) fun _ => ?_
    exact (looksThrough_suite owner body).bind fun _ => looksThrough_block owner otherwise
  | .forStatement _ target iterable body otherwise =>
    rw [statement, Statement.mentions, List.append_assoc, List.append_assoc]
    refine .next (looksUp_enter _) fun _ => .uses (looksUp_optional index rfl _ iterable) fun _ => ?_
    refine .after ?_ (ofRole_optional .bound target) rfl
    refine .next (looksUp_defineLoopTarget _ _ _ _) fun _ => ?_
    exact (looksThrough_suite owner body).bind fun _ => looksThrough_block owner otherwise
  | .withStatement _ items body =>
    rw [statement, Statement.mentions]
    refine .next (looksUp_enter _) fun _ => .uses (looksUp_withItems index _ items) fun _ => ?_
    exact looksThrough_suite owner body
  | .tryStatement _ body caught otherwise cleanup =>
    rw [statement, Statement.mentions, List.append_assoc, List.append_assoc]
    refine .next (looksUp_enter _) fun _ => (looksThrough_suite owner body).bind fun _ => ?_
    refine (looksThrough_handlers owner caught).bind fun _ => ?_
    exact (looksThrough_block owner otherwise).bind fun _ => looksThrough_block owner cleanup

private theorem looksThrough_statements (owner : Option ClassType) (items : List Statement) :
    LooksThrough index (statements index owner items) (statementMentions items) := by
  match items with
  | [] =>
    rw [statements]
    exact looksThrough_pure index
  | first :: rest =>
    rw [statements]
    exact (looksThrough_statement owner first).bind fun _ => looksThrough_statements owner rest

private theorem looksThrough_suite (owner : Option ClassType) (body : Option Suite) :
    LooksThrough index (suite index owner body) (suiteMentions body) := by
  match body with
  | none =>
    rw [suite]
    exact looksThrough_pure index
  | some ⟨_, items⟩ =>
    rw [suite]
    exact looksThrough_statements owner items

private theorem looksThrough_branches (line : Nat) (owner : Option ClassType) (items : List Branch) :
    LooksThrough index (branches index line owner items) (branchMentions items) := by
  match items with
  | [] =>
    rw [branches]
    exact looksThrough_pure index
  | ⟨_, condition, body⟩ :: rest =>
    rw [branches, branchMentions, List.append_assoc]
    refine .uses (looksUp_optional index rfl line condition) fun _ => ?_
    exact (looksThrough_suite owner body).bind fun _ => looksThrough_branches line owner rest

private theorem looksThrough_handlers (owner : Option ClassType) (items : List Handler) :
    LooksThrough index (handlers index owner items) (handlerMentions items) := by
  match items with
  | [] =>
    rw [handlers]
    exact looksThrough_pure index
  | ⟨_, caught, part, body⟩ :: rest =>
    rw [handlers, handlerMentions, List.append_assoc, List.append_assoc]
    refine .next (looksUp_enter _) fun _ => .uses (looksUp_optional index rfl _ caught) fun _ => ?_
    refine .after ?_ (ofRole_names .other part) rfl
    refine .next (looksUp_caughtName _ _ _) fun _ => ?_
    exact (looksThrough_suite owner body).bind fun _ => looksThrough_handlers owner rest

private theorem looksThrough_block (owner : Option ClassType) (otherwise : Option Block) :
    LooksThrough index (block index owner otherwise) (blockMentions otherwise) := by
  match otherwise with
  | none =>
    rw [block]
    exact looksThrough_pure index
  | some ⟨_, body⟩ =>
    rw [block]
    exact looksThrough_suite owner body

end

private theorem looksThrough_script (source : Script) :
    LooksThrough index (script index source) source.mentions := by
  have hreach : LooksThrough index
      (modifyTable fun table => table.reach (index.lastLine source.extent)) [] :=
    (looksUp_modifyTable _).through
  have hboth := (looksThrough_statements index none source.statements).bind fun _ => hreach
  rwa [List.append_nil] at hboth

/-- All that a script looks up: the names that are used in it, each once and in the order of mentions, and
in between only such as stand in declarations. -/
theorem State.lookups_ofScript (source : Script) (table : SymbolTable) :
    let sites := (State.ofScript index source table).uses.map Use.site
    (index.sitesOf .used source.mentions).Sublist sites ∧ sites.Sublist (index.lookable source.mentions) := by
  intro sites
  obtain ⟨added, hadded, hleast, hmost⟩ := looksThrough_script index source (.start table)
  obtain rfl : sites = added := hadded
  exact ⟨hleast, hmost⟩

end Inference

end QuantumScript
