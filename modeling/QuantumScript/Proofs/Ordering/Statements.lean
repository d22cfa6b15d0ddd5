import QuantumScript.Proofs.Ordering.Assignments
import QuantumScript.Proofs.Walking.Occurrences
/-!
# Twin walks of statements

Which names a statement binds depends on its syntax only, unless it declares a name with a hint and without
a value: such a declaration binds the name if the hint names a type. Without these the walk of a statement
is a twin of its walk at any other place.
-/

namespace QuantumScript

namespace Ast

/-- The statement declares names with a hint and gives them no value. -/
def Statement.isBare : Statement → Bool
  | .expressionStatement _ _ assigns augments hint => !assigns && !augments && hint.isSome
  | _ => false

variable (g : Placing)

theorem ImportAlias.boundName_place (item : ImportAlias) : (item.place g).boundName = item.boundName := by
  obtain ⟨extent, path, names, renamed⟩ := item
  have hhead : ((names.map (Name.place g)).head?).bind Name.text = names.head?.bind Name.text := by
    rw [List.head?_map, Name.bind_text_place]
  have hpath : (path.map (DottedName.place g)).map (fun path => path.names.head?.bind Name.text) =
      path.map fun path => path.names.head?.bind Name.text := by
    cases path with
    | none => rfl
    | some path =>
      have hfirst : ((path.names.map (Name.place g)).head?).bind Name.text = path.names.head?.bind Name.text := by
        rw [List.head?_map, Name.bind_text_place]
      exact congrArg some hfirst
  have hbound (item : ImportAlias) : item.boundName = item.alias?.elim
      ((item.path.map fun path => path.names.head?.bind Name.text).getD (item.names.head?.bind Name.text))
      Name.text := by
    unfold boundName
    cases item.alias? with
    | none => cases item.path <;> rfl
    | some name => rfl
  have halias : (ImportAlias.place g ⟨extent, path, names, renamed⟩).alias? =
      (ImportAlias.alias? ⟨extent, path, names, renamed⟩).map (Name.place g) := by
    cases renamed with
    | true => exact List.getLast?_map
    | false => rfl
  rw [hbound, hbound, halias]
  simp only [place, hhead, hpath]
  cases alias? ⟨extent, path, names, renamed⟩ with
  | none => rfl
  | some name => exact name.text_place g

private theorem holderValues_place (items : List Holder) :
    (items.map (Holder.place g)).filterMap Holder.value = placeExprs g (items.filterMap Holder.value) := by
  rw [List.filterMap_map, placeExprs_eq, List.map_filterMap]
  refine congrArg (List.filterMap · items) (funext fun holder => ?_)
  obtain ⟨extent, value⟩ := holder
  exact placeOptional_eq g value

private theorem baseValues_place (bases : Option Arguments) :
    (basesOf (bases.map (Arguments.place g))).map Argument.value =
      ((basesOf bases).map Argument.value).map (placeOptional g) := by
  cases bases with
  | none => rfl
  | some bases =>
    obtain ⟨extent, items⟩ := bases
    have hitems : (placeArguments g items).map Argument.value =
        (items.map Argument.value).map (placeOptional g) := by
      rw [placeArguments_eq, List.map_map, List.map_map]
      refine List.map_congr_left fun argument _ => ?_
      cases argument
      rfl
    exact hitems

end Ast

namespace Inference

open SymbolTable
open Text (LineIndex)

section Parts

variable (index other : LineIndex) (line place : Nat) (g : Ast.Placing)

private theorem between_optional (e : Option Ast.Expr) :
    Twins true (optional index line e) (optional other place (Ast.placeOptional g e)) :=
  (twins_optional index other line place g e).between (idles_optional index line e) (idles_optional other place _)

private theorem between_exprs (items : List Ast.Expr) :
    Twins true (exprs index line items) (exprs other place (Ast.placeExprs g items)) :=
  (twins_exprs index other line place g items).between (idles_exprs index line items) (idles_exprs other place _)

private theorem between_defaults (items : List Ast.Parameter) :
    Twins true (defaults index line items) (defaults other place (items.map (Ast.Parameter.place g))) := by
  rw [← Ast.placeItems_eq]
  exact (twins_defaults index other line place g items).between (local_defaults index items).idles
    (local_defaults other _).idles

private theorem between_types (items : List (Option Ast.Expr)) :
    Twins true (types index line items) (types other place (items.map (Ast.placeOptional g))) :=
  (twins_types index other line place g items).between (local_types index items).idles
    (local_types other _).idles

variable {idle : Bool}

private theorem twins_hinted (hint holder : Option Ast.Holder) : Twins idle (hinted hint) (hinted holder) :=
  .bind .table fun _ _ => .pure _ _

private theorem twins_parameters {owner kin : Option ClassType} (hkin : owner.isSome = kin.isSome)
    (items : List Ast.Parameter) :
    Twins idle (parameters line owner items) (parameters place kin (items.map (Ast.Parameter.place g))) := by
  induction items generalizing owner kin with
  | nil => exact .pure () ()
  | cons parameter rest ih =>
    have hrest : Twins idle (parameters line none rest)
        (parameters place none (rest.map (Ast.Parameter.place g))) := ih rfl
    have htype (name : String) : Twins idle (do
        define name ((← hinted parameter.hint).getD .any) line
        parameters line none rest) (do
        define name ((← hinted (parameter.place g).hint).getD .any) place
        parameters place none (rest.map (Ast.Parameter.place g))) :=
      .bind (twins_hinted _ _) fun _ _ => .bind (.define _ _ _ _ _) fun _ _ => hrest
    have hvariadic : (parameter.place g).variadic = parameter.variadic := by
      cases parameter
      rfl
    rw [List.map_cons, parameters, parameters, Ast.Parameter.text_place, hvariadic]
    cases parameter.text with
    | none => exact hrest
    | some name =>
      cases owner with
      | none =>
        obtain rfl : kin = none := Option.isNone_iff_eq_none.mp (Option.isSome_eq_false_iff.mp hkin.symm)
        exact htype name
      | some type =>
        obtain ⟨known, rfl⟩ := Option.isSome_iff_exists.mp hkin.symm
        cases parameter.variadic with
        | true => exact htype name
        | false => exact .bind (.define _ _ _ _ _) fun _ _ => hrest

private theorem twins_caughtName (name : Option Ast.Name) (caught known : Option SymbolType) :
    Twins idle (caughtName line name caught) (caughtName place (name.map (Ast.Name.place g)) known) := by
  rw [caughtName, caughtName, Ast.Name.bind_text_place]
  cases name.bind Ast.Name.text with
  | none => exact .pure () ()
  | some name => exact .define _ _ _ _ _

private theorem twins_withItems (items : List Ast.WithItem) :
    Twins true (withItems index line items) (withItems other place (items.map (Ast.WithItem.place g))) := by
  induction items with
  | nil => exact .pure () ()
  | cons item rest ih =>
    obtain ⟨extent, value, target⟩ := item
    refine .bind (between_optional index other line place g value) fun _ _ => ?_
    cases target with
    | none => exact ih
    | some target => exact .bind (twins_defineTarget line place g target _ _) fun _ _ => ih

private theorem twins_defineImports (s : Ast.Statement) :
    Twins idle (modifyTable fun table => table.defineImports line s)
      (modifyTable fun table => table.defineImports place (s.place g)) := by
  have hdefine (first second : Binding) (hname : first.name = second.name) {table other : SymbolTable}
      (hleft : Coherent table.scopes table.live) (hright : Coherent other.scopes other.live)
      (houtline : table.outline = other.outline) :
      Coherent (table.define first).scopes (table.define first).live ∧
        Coherent (other.define second).scopes (other.define second).live ∧
          (table.define first).outline = (other.define second).outline := by
    refine ⟨coherent_step hleft (.define _), coherent_step hright (.define _), ?_⟩
    rw [outline_define hleft, outline_define hright, houtline, hname]
  refine .modifyTable fun {table other} hleft hright houtline => ?_
  cases s with
  | importStatement extent aliases =>
    simp only [Ast.Statement.place, defineImports]
    induction aliases generalizing table other with
    | nil => exact ⟨hleft, hright, houtline⟩
    | cons item rest ih =>
      rw [List.map_cons, importModules, importModules, item.boundName_place]
      cases item.boundName with
      | none => exact ih hleft hright houtline
      | some name =>
        obtain ⟨hleft, hright, houtline⟩ := hdefine ⟨name, .any, line⟩ ⟨name, .any, place⟩ rfl hleft hright houtline
        exact ih hleft hright houtline
  | fromImportStatement extent path aliases all =>
    simp only [Ast.Statement.place, defineImports]
    split
    · exact ⟨hleft, hright, houtline⟩
    induction aliases generalizing table other with
    | nil => exact ⟨hleft, hright, houtline⟩
    | cons item rest ih =>
      rw [List.map_cons, importNames, importNames, item.boundName_place]
      cases item.boundName with
      | none => exact ih hleft hright houtline
      | some name =>
        obtain ⟨hleft, hright, houtline⟩ := hdefine ⟨name, table.importedType item, line⟩
          ⟨name, other.importedType (item.place g), place⟩ rfl hleft hright houtline
        exact ih hleft hright houtline
  | _ => exact ⟨hleft, hright, houtline⟩

end Parts

section Statements

variable (index other : LineIndex) (f : Nat → Nat)

private theorem between_decorators (g : Ast.Placing) (line place : Nat) (items : List Ast.Holder) :
    Twins true (decorators index line items) (decorators other place (items.map (Ast.Holder.place g))) := by
  rw [decorators, decorators, Ast.holderValues_place]
  exact between_exprs index other line place g _

mutual

/-- The walk of a statement without bare declarations finds the same names missing, and binds the same
names, wherever the statement stands. -/
theorem twins_statement {owner kin : Option ClassType} (hkin : owner.isSome = kin.isSome) (s : Ast.Statement)
    (hown : s.isBare = false) (hbare : ∀ t ∈ s.nested, t.isBare = false) :
    Twins true (statement index owner s) (statement other kin (s.place (.move f))) := by
  match s with
  | .expressionStatement extent items assigns augments hint =>
    cases augments with
    | true =>
      rw [Ast.Statement.place, statement, statement]
      exact .bind (.enter _ _) fun _ _ => between_exprs index other _ _ _ items
    | false =>
      cases assigns with
      | true =>
        rcases List.eq_nil_or_concat items with rfl | ⟨left, value, rfl⟩
        · rw [Ast.Statement.place, statement, statement]
          exact .bind (.enter _ _) fun _ _ => .bind (twins_hinted _ _) fun _ _ => .pure () ()
        · rw [List.concat_eq_append]
          exact twins_assignment index other f owner kin extent left value hint
      | false =>
        obtain rfl : hint = none := by
          simpa [Ast.Statement.isBare] using hown
        have hnone (index : LineIndex) (line : Nat) (items : List Ast.Expr) :
            expressions index line items false false none = (table >>= fun _ => exprs index line items) := rfl
        rw [Ast.Statement.place, Ast.placeHolder, statement, statement, hnone, hnone]
        exact .bind (.enter _ _) fun _ _ => .bind .table fun _ _ => between_exprs index other _ _ _ items
  | .passStatement _ | .breakStatement _ | .continueStatement _ | .globalStatement _ _ _ =>
    rw [Ast.Statement.place, statement, statement]
    exact .enter _ _
  | .returnStatement _ value | .delStatement _ value =>
    rw [Ast.Statement.place, statement, statement]
    refine .bind (.enter _ _) fun _ _ => ?_
    exact .bind (between_optional index other _ _ _ value) fun _ _ => .pure () ()
  | .importStatement extent aliases =>
    have himports (line place : Nat) : Twins true _ _ :=
      twins_defineImports line place (.move f) (.importStatement extent aliases)
    rw [Ast.Statement.place, statement, statement]
    exact .bind (.enter _ _) fun _ _ => himports _ _
  | .fromImportStatement extent path aliases all =>
    have himports (line place : Nat) : Twins true _ _ :=
      twins_defineImports line place (.move f) (.fromImportStatement extent path aliases all)
    rw [Ast.Statement.place, statement, statement]
    exact .bind (.enter _ _) fun _ _ => himports _ _
  | .raiseStatement _ items | .assertStatement _ items =>
    rw [Ast.Statement.place, statement, statement]
    exact .bind (.enter _ _) fun _ _ => between_exprs index other _ _ _ items
  | .function extent decorated name items returns body =>
    have hbody : Twins true (suite index none body) (suite other none (Ast.placeSuite (.move f) body)) :=
      twins_suite rfl body hbare
    rw [Ast.Statement.place, statement, statement]
    simp only [Ast.signature?, Ast.Name.bind_text_place, Ast.placeParameters_eq, Ast.parametersOf_place]
    refine .bind (.enter _ _) fun _ _ => .bind (between_decorators index other _ _ _ decorated) fun _ _ => ?_
    cases name.bind Ast.Name.text with
    | none => exact .pure () ()
    | some own =>
      refine .bind (between_defaults index other _ _ _ _) fun _ _ => ?_
      refine .bind (.define own _ _ _ _) fun _ _ => .within ?_
      exact .bind (twins_parameters _ _ _ hkin _) fun _ _ => hbody
  | .classDefinition extent decorated name bases body =>
    have hbody (type known : ClassType) : Twins true (suite index (some type) body)
        (suite other (some known) (Ast.placeSuite (.move f) body)) :=
      twins_suite (show (some type).isSome = (some known).isSome from rfl) body hbare
    rw [Ast.Statement.place, statement, statement]
    simp only [Ast.classType?, Ast.Name.bind_text_place, Ast.baseValues_place]
    refine .bind (.enter _ _) fun _ _ => .bind (between_decorators index other _ _ _ decorated) fun _ _ => ?_
    refine .bind (between_types index other _ _ _ _) fun _ _ => ?_
    cases name.bind Ast.Name.text with
    | none => exact .pure () ()
    | some own =>
      simp only [Option.map_some, ClassType.name_inherit]
      exact .bind (.define own _ _ _ _) fun _ _ => .within (hbody _ _)
  | .ifStatement _ condition body others otherwise =>
    obtain ⟨hfirst, hlast⟩ := List.forall_mem_append.mp hbare
    obtain ⟨hbody, hothers⟩ := List.forall_mem_append.mp hfirst
    rw [Ast.Statement.place, statement, statement]
    refine .bind (.enter _ _) fun _ _ => .bind (between_optional index other _ _ _ condition) fun _ _ => ?_
    refine .bind (twins_suite hkin body hbody) fun _ _ => ?_
    exact .bind (twins_branches hkin _ _ others hothers) fun _ _ => twins_block hkin otherwise hlast
  | .whileStatement _ condition body otherwise =>
    obtain ⟨hbody, hlast⟩ := List.forall_mem_append.mp hbare
    rw [Ast.Statement.place, statement, statement]
    refine .bind (.enter _ _) fun _ _ => .bind (between_optional index other _ _ _ condition) fun _ _ => ?_
    exact .bind (twins_suite hkin body hbody) fun _ _ => twins_block hkin otherwise hlast
  | .forStatement _ target iterable body otherwise =>
    obtain ⟨hbody, hlast⟩ := List.forall_mem_append.mp hbare
    rw [Ast.Statement.place, statement, statement]
    refine .bind (.enter _ _) fun _ _ => .bind (between_optional index other _ _ _ iterable) fun _ _ => ?_
    refine .bind (twins_defineLoopTarget _ _ _ target iterable _ _) fun _ _ => ?_
    exact .bind (twins_suite hkin body hbody) fun _ _ => twins_block hkin otherwise hlast
  | .withStatement _ items body =>
    rw [Ast.Statement.place, statement, statement]
    refine .bind (.enter _ _) fun _ _ => .bind (twins_withItems index other _ _ _ items) fun _ _ => ?_
    exact twins_suite hkin body hbare
  | .tryStatement _ body caught otherwise cleanup =>
    obtain ⟨hfirst, hlast⟩ := List.forall_mem_append.mp hbare
    obtain ⟨hsecond, hotherwise⟩ := List.forall_mem_append.mp hfirst
    obtain ⟨hbody, hcaught⟩ := List.forall_mem_append.mp hsecond
    rw [Ast.Statement.place, statement, statement]
    refine .bind (.enter _ _) fun _ _ => .bind (twins_suite hkin body hbody) fun _ _ => ?_
    refine .bind (twins_handlers hkin caught hcaught) fun _ _ => ?_
    exact .bind (twins_block hkin otherwise hotherwise) fun _ _ => twins_block hkin cleanup hlast

private theorem twins_statements {owner kin : Option ClassType} (hkin : owner.isSome = kin.isSome)
    (items : List Ast.Statement) (hbare : ∀ t ∈ Ast.allStatements items, t.isBare = false) :
    Twins true (statements index owner items)
      (statements other kin (Ast.placeStatements (.move f) items)) := by
  match items with
  | [] =>
    rw [Ast.placeStatements, statements, statements]
    exact .pure () ()
  | first :: rest =>
    obtain ⟨hfirst, hrest⟩ := List.forall_mem_append.mp hbare
    obtain ⟨hown, hnested⟩ := List.forall_mem_cons.mp hfirst
    rw [Ast.placeStatements, statements, statements]
    exact .bind (twins_statement hkin first hown hnested) fun _ _ => twins_statements hkin rest hrest

private theorem twins_suite {owner kin : Option ClassType} (hkin : owner.isSome = kin.isSome)
    (body : Option Ast.Suite) (hbare : ∀ t ∈ Ast.allSuite body, t.isBare = false) :
    Twins true (suite index owner body) (suite other kin (Ast.placeSuite (.move f) body)) := by
  match body with
  | none =>
    rw [Ast.placeSuite, suite, suite]
    exact .pure () ()
  | some ⟨_, items⟩ =>
    rw [Ast.placeSuite, Ast.Suite.place, suite, suite]
    exact twins_statements hkin items hbare

private theorem twins_branches {owner kin : Option ClassType} (hkin : owner.isSome = kin.isSome)
    (line place : Nat)
    (items : List Ast.Branch) (hbare : ∀ t ∈ Ast.allBranches items, t.isBare = false) :
    Twins true (branches index line owner items)
      (branches other place kin (Ast.placeBranches (.move f) items)) := by
  match items with
  | [] =>
    rw [Ast.placeBranches, branches, branches]
    exact .pure () ()
  | ⟨_, condition, body⟩ :: rest =>
    obtain ⟨hbody, hrest⟩ := List.forall_mem_append.mp hbare
    rw [Ast.placeBranches, Ast.Branch.place, branches, branches]
    refine .bind (between_optional index other _ _ _ condition) fun _ _ => ?_
    exact .bind (twins_suite hkin body hbody) fun _ _ => twins_branches hkin line place rest hrest

private theorem twins_handlers {owner kin : Option ClassType} (hkin : owner.isSome = kin.isSome)
    (items : List Ast.Handler) (hbare : ∀ t ∈ Ast.allHandlers items, t.isBare = false) :
    Twins true (handlers index owner items) (handlers other kin (Ast.placeHandlers (.move f) items)) := by
  match items with
  | [] =>
    rw [Ast.placeHandlers, handlers, handlers]
    exact .pure () ()
  | ⟨_, caught, name, body⟩ :: rest =>
    obtain ⟨hbody, hrest⟩ := List.forall_mem_append.mp hbare
    rw [Ast.placeHandlers, Ast.Handler.place, handlers, handlers]
    refine .bind (.enter _ _) fun _ _ => .bind (between_optional index other _ _ _ caught) fun _ _ => ?_
    refine .bind (twins_caughtName _ _ _ name _ _) fun _ _ => ?_
    exact .bind (twins_suite hkin body hbody) fun _ _ => twins_handlers hkin rest hrest

private theorem twins_block {owner kin : Option ClassType} (hkin : owner.isSome = kin.isSome)
    (otherwise : Option Ast.Block) (hbare : ∀ t ∈ Ast.allBlock otherwise, t.isBare = false) :
    Twins true (block index owner otherwise) (block other kin (Ast.placeBlock (.move f) otherwise)) := by
  match otherwise with
  | none =>
    rw [Ast.placeBlock, block, block]
    exact .pure () ()
  | some ⟨_, body⟩ =>
    rw [Ast.placeBlock, Ast.Block.place, block, block]
    exact twins_suite hkin body hbare

end

end Statements

end Inference

end QuantumScript
