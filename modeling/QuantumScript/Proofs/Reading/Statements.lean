import QuantumScript.Proofs.Printing.Roundtrip
import QuantumScript.Proofs.Reading.Phrases
/-!
# Reading statements

The abstract syntax of the statements that hold no block. Their prints are read as it.
-/

namespace QuantumScript

namespace Syntax

open Ast (nowhere)

/-- An expression where one is demanded. -/
def Phrase.tightly (value : Expression) : Ast.Expr := .guard .expression value.rule value.ast

/-- A part that holds the expression. -/
def Phrase.held (value : Expression) : Ast.Holder := ⟨nowhere, some value.tightly⟩

def Path.ast (path : Path) : Ast.DottedName := ⟨nowhere, (path.first :: path.others).map Name.ast⟩

def ModuleAlias.ast (item : ModuleAlias) : Ast.ImportAlias :=
  ⟨nowhere, some item.path.ast, item.newName.toList.map Name.ast, item.newName.isSome⟩

def NameAlias.ast (item : NameAlias) : Ast.ImportAlias :=
  ⟨nowhere, none, (item.name :: item.newName.toList).map Name.ast, item.newName.isSome⟩

namespace Imported

def ast : Imported → List Ast.ImportAlias
  | .all => []
  | .names _ first others => (first :: others).map NameAlias.ast

def isAll : Imported → Bool
  | .all => true
  | .names _ _ _ => false

end Imported

def Simple.ast : Simple → Ast.Statement
  | .expression value => .expressionStatement nowhere [value.ast] false false none
  | .annotated target hint value =>
    .expressionStatement nowhere ((target :: value.toList).map Phrase.ast) value.isSome false
      (some hint.held)
  | .assignment first second others =>
    .expressionStatement nowhere ((first :: second :: others).map Phrase.ast) true false none
  | .augmented target _ value =>
    .expressionStatement nowhere [target.ast, value.ast] false true none
  | .pass => .passStatement nowhere
  | .leave => .breakStatement nowhere
  | .again => .continueStatement nowhere
  | .result value => .returnStatement nowhere (value.map Phrase.ast)
  | .reraise => .raiseStatement nowhere []
  | .raise exception cause =>
    .raiseStatement nowhere ((exception :: cause.toList).map Phrase.tightly)
  | .assertion condition message =>
    .assertStatement nowhere ((condition :: message.toList).map Phrase.tightly)
  | .delete targets => .delStatement nowhere (some targets.ast)
  | .declare nonlocal first others =>
    .globalStatement nowhere ((first :: others).map Name.ast) nonlocal
  | .modules first others => .importStatement nowhere ((first :: others).map ModuleAlias.ast)
  | .imported _ path names =>
    .fromImportStatement nowhere (some path.ast) names.ast names.isAll

theorem Phrase.senses_tight (value : Expression) : value.tight.senses = [.expr value.tightly] :=
  Print.senses_guard _ _ value.senses_print

theorem Phrase.senses_loose (value : Expression) : value.loose.senses = [.expr value.ast] := by
  rw [value.loose_eq]
  exact value.senses_print

/-- A node that holds one expression after a symbol. -/
theorem Phrase.senses_held (value : Expression) (symbol : Symbol) {kind : NodeKind}
    (hkind : kind = .typeHint ∨ kind = .defaultValue ∨ kind = .returnType) :
    ((Print.mark symbol ++ value.tight).node kind).senses = [.holder kind value.held] := by
  rw [Print.senses_node, Print.senses_append, value.senses_tight]
  rcases hkind with rfl | rfl | rfl <;> rfl

namespace Print

theorem senses_concat (prints : List Print) : (concat prints).senses = prints.flatMap senses := by
  induction prints with
  | nil => rfl
  | cons print prints ih => rw [concat, senses_append, ih, List.flatMap_cons]

section Items

variable {α : Type} {print : α → Print} {part : α → Ast.Part}
  (h : ∀ item, (print item).senses = [part item])
include h

private theorem filterMap_others {β : Type} {pick : Ast.Part → Option β}
    (hleaf : ∀ leaf, pick (.leaf leaf) = none) (list : List α) :
    (others (list.map print)).senses.filterMap pick = (list.map part).filterMap pick := by
  induction list with
  | nil => rfl
  | cons item list ih =>
    rw [List.map_cons, others, senses_append, senses_append, h, List.filterMap_append,
      List.filterMap_append, ih, senses_mark, List.filterMap_cons_none (hleaf _),
      ← List.filterMap_append]
    rfl

/-- Where each item is one part, what is picked from items is picked from these parts. -/
theorem filterMap_items {β : Type} {pick : Ast.Part → Option β}
    (hleaf : ∀ leaf, pick (.leaf leaf) = none) (list : List α) :
    (items (list.map print)).senses.filterMap pick = (list.map part).filterMap pick := by
  cases list with
  | nil => rfl
  | cons item list =>
    rw [List.map_cons, items, senses_append, h, List.filterMap_append, filterMap_others h hleaf,
      ← List.filterMap_append]
    rfl

theorem findSome?_items {β : Type} {pick : Ast.Part → Option β}
    (hleaf : ∀ leaf, pick (.leaf leaf) = none) (list : List α) :
    (items (list.map print)).senses.findSome? pick = (list.map part).findSome? pick := by
  rw [← List.head?_filterMap, filterMap_items h hleaf, List.head?_filterMap]

private theorem hasToken_others {kind : TokenKind} (hkind : kind ≠ .symbol .comma)
    (hpart : ∀ item, Ast.Part.hasToken kind [part item] = false) (list : List α) :
    Ast.Part.hasToken kind (others (list.map print)).senses = false := by
  have hcomma : Ast.Part.hasToken kind (mark .comma).senses = false := by
    simp [Ast.Part.hasToken, Token.sense, Token.mark, hkind.symm]
  induction list with
  | nil => rfl
  | cons item list ih =>
    rw [List.map_cons, others, senses_append, senses_append, Ast.Part.hasToken_append,
      Ast.Part.hasToken_append, hcomma, h, hpart, ih]
    rfl

private theorem hasToken_items {kind : TokenKind} (hkind : kind ≠ .symbol .comma)
    (hpart : ∀ item, Ast.Part.hasToken kind [part item] = false) (list : List α) :
    Ast.Part.hasToken kind (items (list.map print)).senses = false := by
  cases list with
  | nil => rfl
  | cons item list =>
    rw [List.map_cons, items, senses_append, Ast.Part.hasToken_append, h, hpart,
      hasToken_others h hkind hpart]
    rfl

end Items

theorem senses_asPrint (newName : Option Name) :
    (asPrint newName).senses = newName.toList.flatMap fun name =>
      [.leaf (Token.word .asWord).sense, .expr (.name (Name.ast name))] := by
  cases newName with
  | none => rfl
  | some name =>
    rw [asPrint, senses_append, senses_name]
    rfl

end Print

theorem Path.filterMap_print (path : Path) :
    path.print.senses.filterMap Ast.Part.name? = (path.first :: path.others).map Name.ast := by
  have hother (name : Name) :
      (Print.mark .dot ++ .name name).senses.filterMap Ast.Part.name? = [Name.ast name] := by
    rw [Print.senses_append, Print.senses_name]
    rfl
  rw [print, Print.senses_append, Print.senses_name, Print.senses_concat, List.flatMap_map,
    List.filterMap_append, List.filterMap_flatMap, List.map_cons, List.map_eq_flatMap]
  simp only [hother]
  rfl

/-- The dots before a path are not read. -/
theorem Path.senses_dotted (path : Path) (dots : Nat) :
    ((Print.concat (List.replicate dots (.mark .dot)) ++ path.print).node .dottedName).senses =
      [.dottedName path.ast] := by
  have hdots : (Print.concat (List.replicate dots (.mark .dot))).senses.filterMap Ast.Part.name? =
      [] := by
    rw [Print.senses_concat]
    induction dots with
    | zero => rfl
    | succ dots ih => exact ih
  rw [Print.senses_node, Ast.Part.assemble, Print.senses_append, List.filterMap_append, hdots,
    path.filterMap_print]
  rfl

theorem ModuleAlias.senses_print (item : ModuleAlias) :
    item.print.senses = [.importAlias item.ast] := by
  have hpath : (item.path.print.node .dottedName).senses = [.dottedName item.path.ast] :=
    item.path.senses_dotted 0
  rw [print, Print.senses_node, Print.senses_append, hpath, Print.senses_asPrint, ast]
  cases item.newName <;> rfl

theorem NameAlias.senses_print (item : NameAlias) :
    item.print.senses = [.importAlias item.ast] := by
  rw [print, Print.senses_node, Print.senses_append, Print.senses_name, Print.senses_asPrint, ast]
  cases item.newName <;> rfl

theorem Imported.filterMap_print (names : Imported) :
    names.print.senses.filterMap Ast.Part.importAlias? = names.ast := by
  cases names with
  | all => rfl
  | names parenthesized first others =>
    have hlisted : (Print.items ((first :: others).map NameAlias.print)).senses.filterMap
        Ast.Part.importAlias? = (first :: others).map NameAlias.ast :=
      (Print.filterMap_items NameAlias.senses_print (fun _ => rfl) _).trans
        (Ast.Part.filterMap_map_picked _ fun _ => rfl)
    cases parenthesized with
    | false => exact hlisted
    | true => exact (Print.filterMap_between (fun _ => rfl) .round _).trans hlisted

theorem Imported.hasToken_print (names : Imported) :
    Ast.Part.hasToken (.symbol .star) names.print.senses = names.isAll := by
  cases names with
  | all => rfl
  | names parenthesized first others =>
    have hlisted : Ast.Part.hasToken (.symbol .star)
        (Print.items ((first :: others).map NameAlias.print)).senses = false :=
      Print.hasToken_items NameAlias.senses_print (by decide) (fun _ => rfl) _
    cases parenthesized with
    | false => exact hlisted
    | true =>
      change Ast.Part.hasToken _ (Print.between .round _).senses = _
      rw [Print.senses_between, ← List.singleton_append, Ast.Part.hasToken_append,
        Ast.Part.hasToken_append, hlisted]
      rfl

private theorem reads_assigned (values : List Expression) (parts : List Ast.Part)
    (h : parts = (Print.concat (values.map fun value => .mark .equals ++ value.loose)).senses) :
    parts.filterMap Ast.Part.expr? = values.map Phrase.ast ∧
      Ast.Part.hasToken (.symbol .equals) parts = !values.isEmpty ∧
      Ast.Part.hasToken (.symbol .augmented) parts = false ∧
      parts.findSome? (Ast.Part.holder? .typeHint) = none := by
  induction values generalizing parts with
  | nil =>
    rw [h]
    exact ⟨rfl, rfl, rfl, rfl⟩
  | cons value values ih =>
    obtain ⟨hexprs, _, haugmented, hhint⟩ := ih _ rfl
    rw [h, List.map_cons, Print.concat, Print.senses_append, Print.senses_append,
      value.senses_loose]
    exact ⟨congrArg (value.ast :: ·) hexprs, rfl, haugmented, hhint⟩

theorem Simple.senses_print (simple : Simple) : simple.print.senses = [.statement simple.ast] := by
  cases simple with
  | expression value =>
    rw [print, Print.senses_node, value.senses_loose]
    rfl
  | annotated target hint value =>
    obtain ⟨hexprs, hequals, haugmented, _⟩ := reads_assigned value.toList _ rfl
    rw [print, Print.senses_node]
    simp only [Print.senses_append, target.senses_loose, hint.senses_held .colon (.inl rfl),
      Ast.Part.assemble, List.filterMap_append, Ast.Part.hasToken_append, hexprs, hequals,
      haugmented]
    cases value <;> rfl
  | assignment first second others =>
    obtain ⟨hexprs, hequals, haugmented, hhint⟩ := reads_assigned (second :: others) _ rfl
    rw [print, Print.senses_node]
    simp only [Print.senses_append, first.senses_loose, Ast.Part.assemble, List.filterMap_append,
      Ast.Part.hasToken_append, List.findSome?_append, hexprs, hequals, haugmented, hhint]
    rfl
  | augmented target operator value =>
    have hkind : operator.token.kind = .symbol .augmented := by simpa using operator.kind
    rw [print, Print.senses_node, Print.senses_append, Print.senses_append, target.senses_loose,
      value.senses_loose, Print.senses_leaf]
    have hequals : Ast.Part.hasToken (.symbol .equals) [.leaf operator.token.sense] = false := by
      simp [Ast.Part.hasToken, Token.sense, hkind]
    have haugmented : Ast.Part.hasToken (.symbol .augmented) [.leaf operator.token.sense] = true := by
      simp [Ast.Part.hasToken, Token.sense, hkind]
    simp only [Ast.Part.assemble, Ast.Part.hasToken_append, hequals, haugmented]
    rfl
  | pass => rfl
  | leave => rfl
  | again => rfl
  | result value =>
    cases value with
    | none => rfl
    | some value =>
      rw [print, Print.senses_node, Print.senses_append, value.senses_loose]
      rfl
  | reraise => rfl
  | raise exception cause =>
    cases cause with
    | none =>
      rw [print, Print.senses_node, Print.senses_append, exception.senses_tight]
      rfl
    | some cause =>
      rw [print, Print.senses_node]
      simp only [Print.senses_append, exception.senses_tight, cause.senses_tight]
      rfl
  | assertion condition message =>
    cases message with
    | none =>
      rw [print, Print.senses_node, Print.senses_append, condition.senses_tight]
      rfl
    | some message =>
      rw [print, Print.senses_node]
      simp only [Print.senses_append, condition.senses_tight, message.senses_tight]
      rfl
  | delete targets =>
    rw [print, Print.senses_node, Print.senses_append, targets.senses_print]
    rfl
  | declare nonlocal first others =>
    have hnames : (Print.items ((first :: others).map Print.name)).senses.filterMap
        Ast.Part.name? = (first :: others).map Name.ast :=
      (Print.filterMap_items Print.senses_name (fun _ => rfl) _).trans
        (Ast.Part.filterMap_map_picked _ fun _ => rfl)
    have hnonlocal : Ast.Part.hasToken (.keyword .nonlocalWord)
        (Print.items ((first :: others).map Print.name)).senses = false :=
      Print.hasToken_items Print.senses_name (by decide) (fun _ => rfl) _
    rw [print, Print.senses_node, Print.senses_append, Ast.Part.assemble, List.filterMap_append,
      hnames, Ast.Part.hasToken_append, hnonlocal]
    cases nonlocal <;> rfl
  | modules first others =>
    have haliases : (Print.items ((first :: others).map ModuleAlias.print)).senses.filterMap
        Ast.Part.importAlias? = (first :: others).map ModuleAlias.ast :=
      (Print.filterMap_items ModuleAlias.senses_print (fun _ => rfl) _).trans
        (Ast.Part.filterMap_map_picked _ fun _ => rfl)
    rw [print, Print.senses_node, Print.senses_append, Ast.Part.assemble, List.filterMap_append,
      haliases]
    rfl
  | imported dots path names =>
    rw [print, Print.senses_node]
    simp only [Print.senses_append, path.senses_dotted, Ast.Part.assemble, List.filterMap_append,
      Ast.Part.hasToken_append, List.findSome?_append, names.filterMap_print, names.hasToken_print]
    rfl

end Syntax

end QuantumScript
