import QuantumScript.Proofs.Reading.Statements
/-!
# Reading programs

The abstract syntax of a program, without places, told by the program itself. Printing a program and
reading the text gives it back.
-/

namespace QuantumScript

namespace Syntax

open Ast (nowhere)

def Parameter.ast (parameter : Parameter) : Ast.Parameter :=
  ⟨nowhere, some (Name.ast parameter.name), parameter.hint.map Phrase.held,
    parameter.value.map Phrase.held, parameter.stars.any⟩

def Entered.ast (entered : Entered) : Ast.WithItem :=
  ⟨nowhere, some entered.value.tightly,
    entered.target.map fun value => .guard .bitOr value.rule value.ast⟩

/-- An `except` clause. -/
def Caught.handler (caught : Option Caught) (body : Ast.Suite) : Ast.Handler :=
  ⟨nowhere, caught.map fun caught => caught.exception.tightly,
    caught.bind fun caught => caught.name.map Name.ast, some body⟩

/-- What pieces of each sort are read as. -/
@[reducible] def Segment.Meaning : Segment → Type
  | .statement => Ast.Statement
  | .statements => List Ast.Statement
  | .block => Ast.Suite
  | .branches => List Ast.Branch
  | .otherwise | .cleanup => Option Ast.Block
  | .handlers => List Ast.Handler

def Code.ast {segment : Segment} : Code segment → segment.Meaning
  | .simple content => content.ast
  | .function decorators label parameters value body =>
    .function nowhere (decorators.map Phrase.held) (some (Name.ast label))
      (some ⟨nowhere, parameters.map Parameter.ast⟩) (value.map Phrase.held) (some body.ast)
  | .classDefinition decorators label arguments body =>
    .classDefinition nowhere (decorators.map Phrase.held) (some (Name.ast label))
      (arguments.map fun arguments => ⟨nowhere, arguments.ast⟩) (some body.ast)
  | .choice condition body others final =>
    .ifStatement nowhere (some condition.tightly) (some body.ast) others.ast final.ast
  | .repeated condition body final =>
    .whileStatement nowhere (some condition.tightly) (some body.ast) final.ast
  | .each targets iterable body final =>
    .forStatement nowhere (some targets.ast) (some iterable.ast) (some body.ast) final.ast
  | .entering first more body =>
    .withStatement nowhere ((first :: more).map Entered.ast) (some body.ast)
  | .attempt body caught handler others final finish =>
    .tryStatement nowhere (some body.ast) (Caught.handler caught handler.ast :: others.ast)
      final.ast finish.ast
  | .assured body finish =>
    .tryStatement nowhere (some body.ast) [] none (some ⟨nowhere, some finish.ast⟩)
  | .noStatements => []
  | .statements first more => first.ast :: more.ast
  | .block _ first more => ⟨nowhere, first.ast :: more.ast⟩
  | .noBranches => []
  | .branches condition body more =>
    ⟨nowhere, some condition.tightly, some body.ast⟩ :: more.ast
  | .noOtherwise => none
  | .otherwise body => some ⟨nowhere, some body.ast⟩
  | .noHandlers => []
  | .handlers caught body more => Caught.handler caught body.ast :: more.ast
  | .noCleanup => none
  | .cleanup body => some ⟨nowhere, some body.ast⟩

/-- The parts that a piece of each sort makes up. Line breaks stand among the statements. -/
def Segment.Reads : (segment : Segment) → List Ast.Part → segment.Meaning → Prop
  | .statement, parts, value => parts.filterMap Ast.Part.statement? = [value]
  | .statements, parts, values => parts.filterMap Ast.Part.statement? = values
  | .block, parts, value => parts = [.suite value]
  | .branches, parts, values => parts = values.map .branch
  | .otherwise, parts, value => parts = value.toList.map (.block .elseClause)
  | .handlers, parts, values => parts = values.map .handler
  | .cleanup, parts, value => parts = value.toList.map (.block .finallyClause)

section Heads

private theorem senses_hint (value : Option Expression) :
    (Print.hint value).senses = (value.map Phrase.held).toList.map (.holder .typeHint) := by
  cases value with
  | none => rfl
  | some value => exact value.senses_held .colon (.inl rfl)

private theorem senses_default (value : Option Expression) :
    (Print.default value).senses = (value.map Phrase.held).toList.map (.holder .defaultValue) := by
  cases value with
  | none => rfl
  | some value => exact value.senses_held .equals (.inr (.inl rfl))

private theorem senses_result (value : Option Expression) :
    (Print.result value).senses = (value.map Phrase.held).toList.map (.holder .returnType) := by
  cases value with
  | none => rfl
  | some value => exact value.senses_held .arrow (.inr (.inr rfl))

theorem Parameter.senses_print (parameter : Parameter) :
    parameter.print.senses = [.parameter parameter.ast] := by
  obtain ⟨stars, label, hint, value⟩ := parameter
  rw [print, Print.senses_node]
  simp only [Print.senses_append, Print.senses_leaves, Print.senses_name, senses_hint,
    senses_default]
  cases stars <;> cases hint <;> cases value <;> rfl

private theorem senses_parameters (parameters : List Parameter) :
    (Print.parameters parameters).senses =
      [.parameters ⟨nowhere, parameters.map Parameter.ast⟩] := by
  have hitems : (Print.items (parameters.map Parameter.print)).senses.filterMap
      Ast.Part.parameter? = parameters.map Parameter.ast :=
    (Print.filterMap_items Parameter.senses_print (fun _ => rfl) _).trans
      (Ast.Part.filterMap_map_picked _ fun _ => rfl)
  rw [Print.parameters, Print.senses_node, Ast.Part.assemble,
    Print.filterMap_between (fun _ => rfl), hitems]

private theorem senses_bases (arguments : Option (Phrase (.items .argument))) :
    (Print.bases arguments).senses =
      arguments.toList.map fun arguments => .trailer (.arguments nowhere arguments.ast) := by
  cases arguments with
  | none => rfl
  | some arguments =>
    have harguments : arguments.print.senses.filterMap Ast.Part.argument? = arguments.ast := by
      rw [arguments.senses_print, Part.filterMap_items (fun _ => rfl)]
      exact List.flatMap_singleton' _
    rw [Print.bases, Print.senses_node, Ast.Part.assemble, Print.filterMap_between (fun _ => rfl),
      harguments]
    rfl

theorem Entered.senses_print (entered : Entered) :
    entered.print.senses = [.withItem entered.ast] := by
  obtain ⟨value, target⟩ := entered
  rw [print, Print.senses_node, Print.senses_append, value.senses_tight]
  cases target with
  | none => rfl
  | some target =>
    rw [Print.target, Print.senses_append, Print.senses_guard _ _ target.senses_print]
    rfl

private theorem senses_decorators (style : Style) (decorators : List Expression) :
    (Print.concat (decorators.map (.decorator style))).senses =
      (decorators.map Phrase.held).map (.holder .decorator) := by
  rw [Print.senses_concat, List.flatMap_map, List.map_map, List.map_eq_flatMap]
  congr 1
  funext value
  rw [Print.decorator, Print.senses_node, Print.senses_append, Print.senses_append,
    value.senses_tight]
  rfl

private theorem senses_handler (caught : Option Caught) {print : Print} {body : Ast.Suite}
    (h : print.senses = [.suite body]) :
    ((Print.word .exceptWord ++ (.caught caught ++ .block print)).node .exceptClause).senses =
      [.handler (Caught.handler caught body)] := by
  rw [Print.senses_node]
  simp only [Print.senses_append, Print.block, h]
  cases caught with
  | none => rfl
  | some caught =>
    obtain ⟨exception, label⟩ := caught
    rw [Print.caught, Print.senses_append, exception.senses_tight, Print.senses_asPrint]
    cases label with
    | none => rfl
    | some label =>
      -- The label is the last name, whether or not the exception is one.
      have hlast : ([Ast.Part.expr exception.tightly].filterMap Ast.Part.name? ++
          [Name.ast label]).getLast? = some (Name.ast label) := List.getLast?_concat
      simp only [Ast.Part.assemble, List.filterMap_append, List.append_assoc]
      exact congrArg
        (fun name => [Ast.Part.handler ⟨nowhere, some exception.tightly, name, some body⟩]) hlast

section Decorators

variable (decorators : List Ast.Holder) {tail : List Ast.Part}

private theorem filterMap_decorators (h : tail.filterMap (Ast.Part.holder? .decorator) = []) :
    (decorators.map (Ast.Part.holder .decorator) ++ tail).filterMap (Ast.Part.holder? .decorator) =
      decorators := by
  rw [List.filterMap_append, Ast.Part.filterMap_map_some decorators fun _ => rfl, h,
    List.append_nil]

variable {α : Type} {pick : Ast.Part → Option α}
  (h : ∀ holder, pick (.holder .decorator holder) = none)
include h

private theorem filterMap_decorated :
    (decorators.map (Ast.Part.holder .decorator) ++ tail).filterMap pick = tail.filterMap pick := by
  rw [List.filterMap_append, Ast.Part.filterMap_map_none decorators h, List.nil_append]

private theorem findSome?_decorated :
    (decorators.map (Ast.Part.holder .decorator) ++ tail).findSome? pick = tail.findSome? pick := by
  rw [List.findSome?_append, Ast.Part.findSome?_map_none decorators h, Option.none_or]

end Decorators

end Heads

theorem Segment.Reads.statement {parts : List Ast.Part} {value : Ast.Statement}
    (h : parts = [.statement value]) : Segment.Reads .statement parts value := by
  rw [h]
  rfl

namespace Code

variable (style : Style)

theorem reads {segment : Segment} (code : Code segment) :
    segment.Reads (code.print style).senses code.ast := by
  induction code with
  | simple content =>
    rw [print, Print.senses_append, content.senses_print]
    rfl
  | function decorators label parameters value body ih =>
    have hbody : (body.print style).senses = [.suite body.ast] := ih
    refine Segment.Reads.statement ?_
    rw [print, Print.senses_node]
    simp only [Print.senses_append, senses_decorators, Print.senses_name, senses_parameters,
      senses_result, Print.block, hbody, Ast.Part.assemble]
    rw [filterMap_decorators, filterMap_decorated _ (fun _ => rfl),
      findSome?_decorated _ (fun _ => rfl), findSome?_decorated _ (fun _ => rfl),
      findSome?_decorated _ (fun _ => rfl)]
    · cases value <;> rfl
    · cases value <;> rfl
  | classDefinition decorators label arguments body ih =>
    have hbody : (body.print style).senses = [.suite body.ast] := ih
    refine Segment.Reads.statement ?_
    rw [print, Print.senses_node]
    simp only [Print.senses_append, senses_decorators, Print.senses_name, senses_bases, Print.block,
      hbody, Ast.Part.assemble]
    rw [filterMap_decorators, filterMap_decorated _ (fun _ => rfl),
      findSome?_decorated _ (fun _ => rfl), findSome?_decorated _ (fun _ => rfl)]
    · cases arguments <;> rfl
    · cases arguments <;> rfl
  | choice condition body others final ihbody ihothers ihfinal =>
    have hbody : (body.print style).senses = [.suite body.ast] := ihbody
    have hothers : (others.print style).senses = others.ast.map .branch := ihothers
    have hfinal : (final.print style).senses = final.ast.toList.map (.block .elseClause) := ihfinal
    have hbranches : (others.ast.map Ast.Part.branch).filterMap Ast.Part.branch? = others.ast :=
      Ast.Part.filterMap_map_some _ fun _ => rfl
    have hnone : (others.ast.map Ast.Part.branch).findSome? (Ast.Part.block? .elseClause) = none :=
      Ast.Part.findSome?_map_none _ fun _ => rfl
    refine Segment.Reads.statement ?_
    rw [print, Print.senses_node]
    simp only [Print.senses_append, condition.senses_tight, Print.block, hbody, hothers, hfinal,
      Ast.Part.assemble, List.filterMap_append, List.findSome?_append, hbranches, hnone, ast]
    cases final.ast <;>
      exact congrArg (fun values => [Ast.Part.statement (.ifStatement nowhere _ _ values _)])
        (List.append_nil others.ast)
  | repeated condition body final ihbody ihfinal =>
    have hbody : (body.print style).senses = [.suite body.ast] := ihbody
    have hfinal : (final.print style).senses = final.ast.toList.map (.block .elseClause) := ihfinal
    refine Segment.Reads.statement ?_
    rw [print, Print.senses_node]
    simp only [Print.senses_append, condition.senses_tight, Print.block, hbody, hfinal, ast]
    cases final.ast <;> rfl
  | each targets iterable body final ihbody ihfinal =>
    have hbody : (body.print style).senses = [.suite body.ast] := ihbody
    have hfinal : (final.print style).senses = final.ast.toList.map (.block .elseClause) := ihfinal
    refine Segment.Reads.statement ?_
    rw [print, Print.senses_node]
    simp only [Print.senses_append, targets.senses_print, iterable.senses_loose, Print.block, hbody,
      hfinal, ast]
    cases final.ast <;> rfl
  | entering first more body ih =>
    have hbody : (body.print style).senses = [.suite body.ast] := ih
    have hitems : (Print.items ((first :: more).map Entered.print)).senses.filterMap
        Ast.Part.withItem? = (first :: more).map Entered.ast :=
      (Print.filterMap_items Entered.senses_print (fun _ => rfl) _).trans
        (Ast.Part.filterMap_map_picked _ fun _ => rfl)
    have hnone : (Print.items ((first :: more).map Entered.print)).senses.findSome?
        Ast.Part.suite? = none :=
      (Print.findSome?_items Entered.senses_print (fun _ => rfl) _).trans
        (Ast.Part.findSome?_map_none _ fun _ => rfl)
    refine Segment.Reads.statement ?_
    rw [print, Print.senses_node]
    simp only [Print.senses_append, Print.block, hbody, Ast.Part.assemble, List.filterMap_append,
      List.findSome?_append, hitems, hnone]
    exact congrArg (fun items => [Ast.Part.statement (.withStatement nowhere items (some body.ast))])
      (List.append_nil _)
  | attempt body caught handler others final finish ihbody ihhandler ihothers ihfinal ihfinish =>
    have hbody : (body.print style).senses = [.suite body.ast] := ihbody
    have hothers : (others.print style).senses = others.ast.map .handler := ihothers
    have hfinal : (final.print style).senses = final.ast.toList.map (.block .elseClause) := ihfinal
    have hfinish : (finish.print style).senses = finish.ast.toList.map (.block .finallyClause) :=
      ihfinish
    have hhandler := senses_handler caught ihhandler
    have hhandlers : (others.ast.map Ast.Part.handler).filterMap Ast.Part.handler? = others.ast :=
      Ast.Part.filterMap_map_some _ fun _ => rfl
    have hnone (kind : NodeKind) :
        (others.ast.map Ast.Part.handler).findSome? (Ast.Part.block? kind) = none :=
      Ast.Part.findSome?_map_none _ fun _ => rfl
    refine Segment.Reads.statement ?_
    rw [print, Print.senses_node]
    simp only [Print.senses_append, hhandler, hothers, hfinal, hfinish]
    simp only [Print.senses_append, Print.block, hbody, Ast.Part.assemble, List.filterMap_append,
      List.findSome?_append, hhandlers, hnone, ast]
    cases final.ast <;> cases finish.ast <;>
      exact congrArg (fun values => [Ast.Part.statement (.tryStatement nowhere _ (_ :: values) _ _)])
        (List.append_nil others.ast)
  | assured body finish ihbody ihfinish =>
    have hbody : (body.print style).senses = [.suite body.ast] := ihbody
    have hfinish : (finish.print style).senses = [.suite finish.ast] := ihfinish
    refine Segment.Reads.statement ?_
    rw [print, Print.senses_node]
    simp only [Print.senses_append, Print.block, Print.senses_node, hbody, hfinish]
    rfl
  | noStatements => rfl
  | statements first more ihfirst ihmore =>
    change List.filterMap _ _ = _
    rw [print, Print.senses_append, List.filterMap_append, ihfirst, ihmore]
    rfl
  | block extra first more ihfirst ihmore =>
    have hfirst : (first.print style).senses.filterMap Ast.Part.statement? = [first.ast] := ihfirst
    have hmore : (more.print style).senses.filterMap Ast.Part.statement? = more.ast := ihmore
    change Print.senses _ = [_]
    rw [print, Print.senses_node]
    simp only [Print.senses_append, Ast.Part.assemble, List.filterMap_append, hfirst, hmore]
    exact congrArg (fun values => [Ast.Part.suite ⟨nowhere, first.ast :: values⟩])
      (List.append_nil more.ast)
  | noBranches => rfl
  | branches condition body more ihbody ihmore =>
    have hbody : (body.print style).senses = [.suite body.ast] := ihbody
    have hmore : (more.print style).senses = more.ast.map .branch := ihmore
    change Print.senses _ = List.map _ _
    rw [print, Print.senses_append, Print.senses_node, hmore]
    simp only [Print.senses_append, condition.senses_tight, Print.block, hbody]
    rfl
  | noOtherwise => rfl
  | otherwise body ih =>
    have hbody : (body.print style).senses = [.suite body.ast] := ih
    change Print.senses _ = List.map _ _
    rw [print, Print.senses_node, Print.senses_append, Print.block, Print.senses_append, hbody]
    rfl
  | noHandlers => rfl
  | handlers caught body more ihbody ihmore =>
    have hmore : (more.print style).senses = more.ast.map .handler := ihmore
    change Print.senses _ = List.map _ _
    rw [print, Print.senses_append, senses_handler caught ihbody, hmore]
    rfl
  | noCleanup => rfl
  | cleanup body ih =>
    have hbody : (body.print style).senses = [.suite body.ast] := ih
    change Print.senses _ = List.map _ _
    rw [print, Print.senses_node, Print.senses_append, Print.block, Print.senses_append, hbody]
    rfl

end Code

/-- Printing a program and parsing the text gives the tree of the program back, without an error, and
what is read from the tree is the program. -/
theorem parse_reads_program (style : Style) (program : Code .statements) :
    (parse (program.text style)).errors = [] ∧
      (parse (program.text style)).tree.bare = .node .file (program.print style).trees ∧
      (Ast.Script.ofTree (parse (program.text style)).tree).place .forget =
        ⟨nowhere, program.ast⟩ := by
  obtain ⟨herrors, htree⟩ := parse_program style program
  refine ⟨herrors, htree, ?_⟩
  rw [Ast.Script.ofTree_forget htree]
  exact congrArg (Ast.Script.mk nowhere) (program.reads style)

end Syntax

end QuantumScript
